/-
This file says what a Merkle path proves. Where the number of payloads is a power of two, each of
them has a path, as long as the tree is deep, that leads to the root; no other list has a root or a
path. The other way round, a payload, an index and a path of that length lead to the root only if
the payload stands at the index and the path is its own, or two different byte strings that were
digested for the root or on the way to it have the same digest. The argument walks from the root
down, as a path does: each node that the fold ends with is also a node of the tree, so unless there
is a collision its two children are the tree's, and one of them is the sibling.
-/
import StreamLedger.Proofs.Merkle.Commitment

namespace StreamLedger.Merkle

/-! ### Every payload has a path -/

section

variable {H : DigestFunction}

/-- What a tree over `2 ^ depth` payloads offers. -/
structure Opens (H : DigestFunction) (leaves : List Bytes) (depth : Nat) (merkleRoot : Digest) :
    Prop where
  root : root H leaves = .ok merkleRoot
  /-- The path of a payload has one sibling for each level. It leads to the root, as long as the
  number of payloads fits into eight bytes. -/
  paths : ∀ index payload, leaves[index]? = some payload →
    ∃ siblings, path H leaves index = .ok siblings ∧ siblings.length = depth ∧
      (leaves.length < 2 ^ 64 → rootFromPath H payload index siblings = some merkleRoot ∧
        verify H merkleRoot payload index siblings = true)
  outside : ∀ index, leaves.length ≤ index →
    path H leaves index = .error (.indexOutOfRange index leaves.length)

theorem opens_of_length_eq {leaves : List Bytes} {depth : Nat} (size : leaves.length = 2 ^ depth) :
    Opens H leaves depth (rootOf H leaves) where
  root := by rw [root, size, if_pos (isPowerOfTwo_two_pow depth)]
  paths index payload standing := by
    refine ⟨_, path_eq_ok size (List.getElem?_eq_some_iff.mp standing).1, length_pathIn _ _ _,
      fun small => ?_⟩
    have leads := rootFromPath_pathIn (H := H) size (depth_lt_of_length_lt size small) standing
    exact ⟨leads, by rw [verify, leads, beq_self_eq_true]⟩
  outside index after := by
    rw [path, if_neg (Nat.not_lt.mpr after), size, if_pos (isPowerOfTwo_two_pow depth)]

/-- A list of payloads has a root, and each payload a path that leads to it, exactly if their number
is a power of two. -/
theorem opens_or_unsupported (H : DigestFunction) (leaves : List Bytes) :
    (∀ depth, leaves.length = 2 ^ depth → ∃ merkleRoot, Opens H leaves depth merkleRoot) ∧
      ((∀ depth, leaves.length ≠ 2 ^ depth) →
        root H leaves = .error (.unsupportedShape leaves.length) ∧
          ∀ index, path H leaves index = .error (.unsupportedShape leaves.length)) := by
  refine ⟨fun depth size => ⟨_, opens_of_length_eq size⟩, fun other => ?_⟩
  have shape : ¬ isPowerOfTwo leaves.length = true := fun shape =>
    other _ ((isPowerOfTwo_iff _).mp shape)
  exact ⟨if_neg shape, fun index => if_neg shape⟩

/-- The third of four payloads, and three payloads without the fourth. -/
theorem opens_or_unsupported_four :
    let H : DigestFunction := Blake3.digest
    (∃ merkleRoot siblings, root H [[1], [2], [3], [4]] = .ok merkleRoot ∧
      path H [[1], [2], [3], [4]] 2 = .ok siblings ∧ siblings.length = 2 ∧
      verify H merkleRoot [3] 2 siblings = true) ∧
      root H [[1], [2], [3]] = .error (.unsupportedShape 3) := by
  intro H
  obtain ⟨merkleRoot, opens⟩ := (opens_or_unsupported H [[1], [2], [3], [4]]).1 2 rfl
  obtain ⟨siblings, path, length, leads⟩ := opens.paths 2 [3] rfl
  refine ⟨⟨merkleRoot, siblings, opens.root, path, length, (leads (by decide)).2⟩, ?_⟩
  refine ((opens_or_unsupported H [[1], [2], [3]]).2 fun depth size => ?_).1
  have deep : Nat.log2 3 = depth := by rw [show 3 = 2 ^ depth from size, Nat.log2_two_pow]
  subst deep
  cases size

end

/-! ### What is digested for two halves -/

section

variable {H : DigestFunction} {depth : Nat} {left right : List Bytes}

theorem pairStrings_append {half : Nat} {low : List Digest} (size : low.length = 2 * half)
    (high : List Digest) : pairStrings (low ++ high) = pairStrings low ++ pairStrings high := by
  induction half generalizing low with
  | zero =>
    obtain rfl : low = [] := List.eq_nil_of_length_eq_zero size
    rfl
  | succ half inductionHypothesis =>
    obtain ⟨first, second, rest, rfl, restSize⟩ := exists_pair size
    exact congrArg ((first.bytes ++ second.bytes) :: ·) (inductionHypothesis restSize)

/-- What is digested for two halves is digested for the whole, and besides only the pair of the
digests that they fold to. -/
theorem mem_levelStrings_append {low high : List Digest} (lowSize : low.length = 2 ^ depth)
    (highSize : high.length = 2 ^ depth) (string : Bytes) :
    string ∈ levelStrings H (low ++ high) ↔
      string ∈ levelStrings H low ∨ string ∈ levelStrings H high ∨
        string = (foldLevels H low).bytes ++ (foldLevels H high).bytes := by
  induction depth generalizing low high with
  | zero =>
    obtain ⟨first, rfl⟩ := List.length_eq_one_iff.mp lowSize
    obtain ⟨second, rfl⟩ := List.length_eq_one_iff.mp highSize
    simp [levelStrings, pairStrings, pairUp, foldLevels]
  | succ depth inductionHypothesis =>
    rw [Nat.pow_succ'] at lowSize highSize
    have nodes := inductionHypothesis (length_pairUp (H := H) lowSize)
      (length_pairUp (H := H) highSize)
    rw [foldLevels_pairUp, foldLevels_pairUp] at nodes
    rw [levelStrings_eq (low ++ high), levelStrings_eq low, levelStrings_eq high,
      pairStrings_append lowSize, pairUp_append lowSize]
    simp only [List.mem_append, nodes]
    tauto

theorem mem_rootStrings_append (leftSize : left.length = 2 ^ depth)
    (rightSize : right.length = 2 ^ depth) (string : Bytes) :
    string ∈ rootStrings H (left ++ right) ↔
      string ∈ rootStrings H left ∨ string ∈ rootStrings H right ∨
        string = (rootOf H left).bytes ++ (rootOf H right).bytes := by
  have levels := mem_levelStrings_append (H := H) ((List.length_map H).trans leftSize)
    ((List.length_map H).trans rightSize) string
  simp only [rootStrings, List.map_append, List.mem_append, levels, rootOf]
  tauto

end

/-! ### What is digested for a path -/

section

variable (H : DigestFunction)

/-- The byte strings that are digested while a leaf is folded up to a root: one pair of digests for
each level that the siblings reach. -/
def foldStrings (leaf : Digest) : (depth index : Nat) → (siblings : List Digest) → List Bytes
  | 0, _, _ => []
  | depth + 1, index, siblings =>
    if 1 <<< depth ≤ index then
      match siblings with
      | [] => []
      | left :: siblings =>
        foldStrings leaf depth (index - 1 <<< depth) siblings ++
          match foldPath H leaf depth (index - 1 <<< depth) siblings with
          | none => []
          | some (right, _) => [left.bytes ++ right.bytes]
    else
      foldStrings leaf depth index siblings ++
        match foldPath H leaf depth index siblings with
        | none | some (_, []) => []
        | some (left, right :: _) => [left.bytes ++ right.bytes]

/-- The byte strings that are digested for the root that a payload and a path lead to. -/
def pathStrings (payload : Bytes) (index : Nat) (path : List Digest) : List Bytes :=
  if path.length < 64 ∧ index < 1 <<< path.length then
    payload :: foldStrings H (H payload) path.length index path
  else []

end

section

variable {H : DigestFunction} {leaf top : Digest} {depth index : Nat} {siblings rest : List Digest}

/-- In the right half of a tree the first sibling is the root of the left half. -/
theorem of_foldPath_right (onTheRight : 2 ^ depth ≤ index)
    (folded : foldPath H leaf (depth + 1) index siblings = some (top, rest)) :
    ∃ left others right, siblings = left :: others ∧
      foldPath H leaf depth (index - 2 ^ depth) others = some (right, rest) ∧
      top = node H left right ∧
      foldStrings H leaf (depth + 1) index siblings =
        foldStrings H leaf depth (index - 2 ^ depth) others ++ [left.bytes ++ right.bytes] := by
  simp only [foldPath, foldStrings, Nat.one_shiftLeft, if_pos onTheRight] at folded ⊢
  cases siblings with
  | nil => cases folded
  | cons left others =>
    cases below : foldPath H leaf depth (index - 2 ^ depth) others with
    | none => simp [below] at folded
    | some result =>
      obtain ⟨right, after⟩ := result
      simp only [below, Option.some.injEq, Prod.mk.injEq] at folded
      obtain ⟨rfl, rfl⟩ := folded
      exact ⟨left, others, right, rfl, below, rfl, by simp only [below]⟩

/-- In the left half of a tree the last sibling is the root of the right half. -/
theorem of_foldPath_left (onTheLeft : ¬ 2 ^ depth ≤ index)
    (folded : foldPath H leaf (depth + 1) index siblings = some (top, rest)) :
    ∃ left right, foldPath H leaf depth index siblings = some (left, right :: rest) ∧
      top = node H left right ∧
      foldStrings H leaf (depth + 1) index siblings =
        foldStrings H leaf depth index siblings ++ [left.bytes ++ right.bytes] := by
  simp only [foldPath, foldStrings, Nat.one_shiftLeft, if_neg onTheLeft] at folded ⊢
  cases below : foldPath H leaf depth index siblings with
  | none => simp [below] at folded
  | some result =>
    obtain ⟨left, after⟩ := result
    cases after with
    | nil => simp [below] at folded
    | cons right after =>
      simp only [below, Option.some.injEq, Prod.mk.injEq] at folded
      obtain ⟨rfl, rfl⟩ := folded
      exact ⟨left, right, rfl, rfl, rfl⟩

theorem foldPath_congr {other : DigestFunction}
    (agree : ∀ string ∈ foldStrings H leaf depth index siblings, H string = other string) :
    foldPath H leaf depth index siblings = foldPath other leaf depth index siblings := by
  induction depth generalizing index siblings with
  | zero => rfl
  | succ depth inductionHypothesis =>
    simp only [foldStrings, foldPath, Nat.one_shiftLeft] at agree ⊢
    split at agree
    · rename_i onTheRight
      rw [if_pos onTheRight, if_pos onTheRight]
      cases siblings with
      | nil => rfl
      | cons left siblings =>
        obtain ⟨agreeBelow, agreeAbove⟩ := List.forall_mem_append.mp agree
        simp only [← inductionHypothesis agreeBelow]
        split
        · rfl
        · rename_i right rest below
          simp only [below, List.forall_mem_singleton] at agreeAbove
          simp only [node, agreeAbove]
    · rename_i onTheLeft
      rw [if_neg onTheLeft, if_neg onTheLeft]
      obtain ⟨agreeBelow, agreeAbove⟩ := List.forall_mem_append.mp agree
      simp only [← inductionHypothesis agreeBelow]
      split
      · rfl
      · rfl
      · rename_i left right rest below
        simp only [below, List.forall_mem_singleton] at agreeAbove
        simp only [node, agreeAbove]

/-- No other byte string is digested: the root hangs on the digests of these only. -/
theorem rootFromPath_congr {other : DigestFunction} {payload : Bytes} {path : List Digest}
    (agree : ∀ string ∈ pathStrings H payload index path, H string = other string) :
    rootFromPath H payload index path = rootFromPath other payload index path := by
  unfold pathStrings at agree
  unfold rootFromPath
  split
  · rename_i fits
    rw [if_pos fits, List.forall_mem_cons] at agree
    rw [foldPath_congr agree.2, agree.1]
  · rfl

end

/-! ### A root holds a verifier to the payloads -/

section

variable {H : DigestFunction} {strings leaves : List Bytes} {payload : Bytes}
  {siblings rest : List Digest} {depth index : Nat}

theorem eq_of_node_eq (distinct : ¬ Collides H strings) {left right otherLeft otherRight : Digest}
    (member : left.bytes ++ right.bytes ∈ strings)
    (otherMember : otherLeft.bytes ++ otherRight.bytes ∈ strings)
    (same : node H left right = node H otherLeft otherRight) :
    left = otherLeft ∧ right = otherRight :=
  eq_of_append_bytes_eq (eq_of_digest_eq distinct member otherMember same)

/-- A fold that ends at the root of a tree has begun with the tree's payload at the index and has
taken its path, unless there is a collision. -/
theorem pathIn_of_foldPath (distinct : ¬ Collides H strings) (size : leaves.length = 2 ^ depth)
    (inTree : index < 2 ^ depth) (rootWithin : rootStrings H leaves ⊆ strings)
    (member : payload ∈ strings)
    (foldWithin : foldStrings H (H payload) depth index siblings ⊆ strings)
    (folded : foldPath H (H payload) depth index siblings = some (rootOf H leaves, rest)) :
    leaves[index]? = some payload ∧ siblings = pathIn H depth leaves index ++ rest := by
  induction depth generalizing leaves index siblings rest with
  | zero =>
    obtain ⟨only, rfl⟩ := List.length_eq_one_iff.mp size
    obtain rfl : index = 0 := Nat.lt_one_iff.mp inTree
    simp only [foldPath, rootOf, List.map_cons, List.map_nil, foldLevels, Option.some.injEq,
      Prod.mk.injEq] at folded
    obtain ⟨same, rfl⟩ := folded
    have onlyMember : only ∈ strings := rootWithin (List.mem_append_left _ List.mem_cons_self)
    rw [eq_of_digest_eq distinct member onlyMember same]
    exact ⟨rfl, rfl⟩
  | succ depth inductionHypothesis =>
    obtain ⟨left, right, rfl, leftSize, rightSize⟩ := exists_halves size
    have digested := mem_rootStrings_append (H := H) leftSize rightSize
    have leftWithin : rootStrings H left ⊆ strings := fun string inLeft =>
      rootWithin ((digested string).mpr (Or.inl inLeft))
    have rightWithin : rootStrings H right ⊆ strings := fun string inRight =>
      rootWithin ((digested string).mpr (Or.inr (Or.inl inRight)))
    have topMember : (rootOf H left).bytes ++ (rootOf H right).bytes ∈ strings :=
      rootWithin ((digested _).mpr (Or.inr (Or.inr rfl)))
    rw [rootOf_append leftSize rightSize] at folded
    rw [pathIn_append leftSize]
    by_cases onTheRight : 2 ^ depth ≤ index
    · obtain ⟨sibling, others, below, rfl, foldedBelow, same, stringsAre⟩ :=
        of_foldPath_right onTheRight folded
      obtain ⟨belowWithin, pairWithin⟩ := List.append_subset.mp (stringsAre ▸ foldWithin)
      obtain ⟨rfl, rfl⟩ :=
        eq_of_node_eq distinct topMember (pairWithin (List.mem_singleton_self _)) same
      rw [Nat.pow_succ'] at inTree
      obtain ⟨standing, path⟩ := inductionHypothesis rightSize (by omega) rightWithin belowWithin
        foldedBelow
      refine ⟨?_, ?_⟩
      · rw [List.getElem?_append_right (by omega), leftSize, standing]
      · rw [if_pos onTheRight, path, List.cons_append]
    · obtain ⟨below, sibling, foldedBelow, same, stringsAre⟩ := of_foldPath_left onTheRight folded
      obtain ⟨belowWithin, pairWithin⟩ := List.append_subset.mp (stringsAre ▸ foldWithin)
      obtain ⟨rfl, rfl⟩ :=
        eq_of_node_eq distinct topMember (pairWithin (List.mem_singleton_self _)) same
      obtain ⟨standing, path⟩ := inductionHypothesis leftSize (by omega) leftWithin belowWithin
        foldedBelow
      refine ⟨?_, ?_⟩
      · rw [List.getElem?_append_left (by omega), standing]
      · rw [if_neg onTheRight, path, List.append_assoc, List.singleton_append]

theorem of_verify {merkleRoot : Digest} {path : List Digest}
    (accepted : verify H merkleRoot payload index path = true) :
    path.length < 64 ∧ index < 2 ^ path.length ∧
      foldPath H (H payload) path.length index path = some (merkleRoot, []) := by
  rw [verify, beq_iff_eq, rootFromPath, Nat.one_shiftLeft] at accepted
  split at accepted
  · rename_i fits
    split at accepted
    · rename_i top folded
      cases accepted
      exact ⟨fits.1, fits.2, folded⟩
    · cases accepted
  · cases accepted

/-- Whatever payload, index and path of the tree's depth lead to the root of a tree are its own,
unless two different byte strings that were digested for the root or for the path have the same
digest. -/
theorem standing_of_verify {merkleRoot : Digest} (size : leaves.length = 2 ^ depth)
    (made : root H leaves = .ok merkleRoot) (long : siblings.length = depth)
    (accepted : verify H merkleRoot payload index siblings = true)
    (distinct : ¬ Collides H (rootStrings H leaves ++ pathStrings H payload index siblings)) :
    index < 2 ^ depth ∧ leaves[index]? = some payload ∧ path H leaves index = .ok siblings := by
  obtain ⟨_, rfl⟩ := of_root_eq_ok made
  obtain ⟨shallow, inTree, folded⟩ := of_verify accepted
  have digested : pathStrings H payload index siblings =
      payload :: foldStrings H (H payload) siblings.length index siblings := by
    rw [pathStrings, Nat.one_shiftLeft, if_pos ⟨shallow, inTree⟩]
  rw [long] at inTree folded digested
  rw [digested] at distinct
  obtain ⟨standing, siblingsAre⟩ := pathIn_of_foldPath distinct size inTree
    (List.subset_append_left _ _) (List.mem_append_right _ List.mem_cons_self)
    (List.Subset.trans (List.subset_cons_self _ _) (List.subset_append_right _ _)) folded
  rw [List.append_nil] at siblingsAre
  rw [siblingsAre]
  exact ⟨inTree, standing, path_eq_ok size (size ▸ inTree)⟩

/-- The third of four payloads, which is taken as the left child of a node on the right. -/
theorem standing_of_verify_third :
    let H : DigestFunction := fun bytes =>
      ⟨bytes.foldl (fun sum byte => 31 * sum + byte) 7 :: List.replicate 31 0, rfl⟩
    let leaves : List Bytes := [[1], [2], [3], [4]]
    let siblings : List Digest := [H (pairPayload H [1] [2]), H [4]]
    2 < 2 ^ 2 ∧ leaves[2]? = some [3] ∧ path H leaves 2 = .ok siblings := by
  intro H leaves siblings
  have size : leaves.length = 2 ^ 2 := rfl
  exact standing_of_verify size (opens_of_length_eq size).root rfl (by decide +kernel)
    (by decide +kernel)

end

end StreamLedger.Merkle
