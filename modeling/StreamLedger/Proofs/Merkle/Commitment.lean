/-
This file says what a Merkle root commits to. Two payload lists of the same length have the same
root only if they are equal or two different byte strings that were digested for the roots have the
same digest. Lists of different lengths are another matter: a payload is digested as a pair of
digests is, so the byte strings that one round of joining digests are themselves payloads with the
same root. Barring a collision these are the only other lists with it.
-/
import Mathlib.Data.List.Nodup
import StreamLedger.Digest.Blake3
import StreamLedger.Proofs.Merkle

namespace StreamLedger

/-! ### Collisions -/

/-- Two different ones among some byte strings have the same digest. -/
def Collides (H : DigestFunction) (strings : List Bytes) : Prop :=
  ∃ first ∈ strings, ∃ second ∈ strings, first ≠ second ∧ H first = H second

section

variable {H : DigestFunction} {strings : List Bytes}

instance : Decidable (Collides H strings) :=
  inferInstanceAs
    (Decidable (∃ first ∈ strings, ∃ second ∈ strings, first ≠ second ∧ H first = H second))

/-- Without a collision a digest names one byte string. -/
theorem eq_of_digest_eq (distinct : ¬ Collides H strings) {first second : Bytes}
    (firstMember : first ∈ strings) (secondMember : second ∈ strings)
    (same : H first = H second) : first = second :=
  Classical.byContradiction fun different =>
    distinct ⟨first, firstMember, second, secondMember, different, same⟩

theorem eq_of_map_digest_eq (distinct : ¬ Collides H strings) {first second : List Bytes}
    (firstWithin : first ⊆ strings) (secondWithin : second ⊆ strings)
    (same : first.map H = second.map H) : first = second := by
  induction first generalizing second with
  | nil => exact (List.map_eq_nil_iff.mp same.symm).symm
  | cons head rest inductionHypothesis =>
    cases second with
    | nil => cases same
    | cons otherHead otherRest =>
      obtain ⟨heads, rests⟩ := List.cons.inj same
      obtain ⟨headMember, restWithin⟩ := List.cons_subset.mp firstWithin
      obtain ⟨otherMember, otherWithin⟩ := List.cons_subset.mp secondWithin
      rw [eq_of_digest_eq distinct headMember otherMember heads,
        inductionHypothesis restWithin otherWithin rests]

end

namespace Merkle

/-! ### What is digested for a root -/

/-- The byte strings whose digests are the nodes over neighbours. -/
def pairStrings : List Digest → List Bytes
  | left :: right :: rest => (left.bytes ++ right.bytes) :: pairStrings rest
  | _ => []

section

variable (H : DigestFunction)

/-- The byte strings that are digested while a level is folded. -/
def levelStrings : List Digest → List Bytes
  | [] => []
  | [_] => []
  | left :: right :: rest =>
    pairStrings (left :: right :: rest) ++ levelStrings (pairUp H (left :: right :: rest))
termination_by level => level.length
decreasing_by
  have := length_pairUp_le H rest
  simp [pairUp]
  omega

/-- The byte strings that are digested for the root over payloads. -/
def rootStrings (leaves : List Bytes) : List Bytes := leaves ++ levelStrings H (leaves.map H)

/-- The byte strings that the first round of joining digests. -/
def joined (leaves : List Bytes) : List Bytes := pairStrings (leaves.map H)

/-- The byte strings that a later round of joining digests, those of round 0 being the payloads. -/
def round : (count : Nat) → List Bytes → List Bytes
  | 0, leaves => leaves
  | count + 1, leaves => round count (joined H leaves)

end

variable {H : DigestFunction}

/-! ### One round -/

theorem levelStrings_eq (level : List Digest) :
    levelStrings H level = pairStrings level ++ levelStrings H (pairUp H level) := by
  match level with
  | [] => simp [levelStrings, pairStrings, pairUp]
  | [_] => simp [levelStrings, pairStrings, pairUp]
  | first :: second :: rest => rw [levelStrings.eq_3]

theorem map_pairStrings {half : Nat} {level : List Digest} (size : level.length = 2 * half) :
    (pairStrings level).map H = pairUp H level := by
  induction half generalizing level with
  | zero =>
    obtain rfl : level = [] := List.eq_nil_of_length_eq_zero size
    rfl
  | succ half inductionHypothesis =>
    obtain ⟨left, right, rest, rfl, restSize⟩ := exists_pair size
    exact congrArg (node H left right :: ·) (inductionHypothesis restSize)

theorem eq_of_append_bytes_eq {left right otherLeft otherRight : Digest}
    (same : left.bytes ++ right.bytes = otherLeft.bytes ++ otherRight.bytes) :
    left = otherLeft ∧ right = otherRight := by
  obtain ⟨lefts, rights⟩ := List.append_inj same
    (left.length_bytes.trans otherLeft.length_bytes.symm)
  exact ⟨Octets.ext_bytes lefts, Octets.ext_bytes rights⟩

/-- The strings of two digests each tell the digests. -/
theorem pairStrings_injective {half : Nat} {first second : List Digest}
    (firstSize : first.length = 2 * half) (secondSize : second.length = 2 * half)
    (same : pairStrings first = pairStrings second) : first = second := by
  induction half generalizing first second with
  | zero =>
    rw [List.eq_nil_of_length_eq_zero firstSize, List.eq_nil_of_length_eq_zero secondSize]
  | succ half inductionHypothesis =>
    obtain ⟨left, right, rest, rfl, restSize⟩ := exists_pair firstSize
    obtain ⟨otherLeft, otherRight, otherRest, rfl, otherSize⟩ := exists_pair secondSize
    obtain ⟨pairs, rests⟩ := List.cons.inj same
    obtain ⟨rfl, rfl⟩ := eq_of_append_bytes_eq pairs
    rw [inductionHypothesis restSize otherSize rests]

section

variable {depth : Nat} {leaves : List Bytes}

theorem length_map_of_pow_succ (size : leaves.length = 2 ^ (depth + 1)) :
    (leaves.map H).length = 2 * 2 ^ depth := by
  rw [List.length_map, size, Nat.pow_succ']

theorem map_joined (size : leaves.length = 2 ^ (depth + 1)) :
    (joined H leaves).map H = pairUp H (leaves.map H) :=
  map_pairStrings (length_map_of_pow_succ size)

theorem length_joined (size : leaves.length = 2 ^ (depth + 1)) :
    (joined H leaves).length = 2 ^ depth := by
  rw [← List.length_map H, map_joined size, length_pairUp (length_map_of_pow_succ size)]

/-- What a round digests has the same root as what it joins. -/
theorem rootOf_joined (size : leaves.length = 2 ^ (depth + 1)) :
    rootOf H (joined H leaves) = rootOf H leaves := by
  rw [rootOf, map_joined size, foldLevels_pairUp, rootOf]

theorem rootStrings_eq (size : leaves.length = 2 ^ (depth + 1)) :
    rootStrings H leaves = leaves ++ rootStrings H (joined H leaves) := by
  rw [rootStrings, levelStrings_eq, rootStrings, map_joined size, joined]

theorem rootStrings_joined_subset (size : leaves.length = 2 ^ (depth + 1)) :
    rootStrings H (joined H leaves) ⊆ rootStrings H leaves := by
  rw [rootStrings_eq size]
  exact List.subset_append_right _ _

end

/-! ### Lists with one root -/

section

variable {strings first second : List Bytes}

/-- Lists of one length are known by their root, unless there is a collision. -/
theorem eq_of_rootOf_eq (distinct : ¬ Collides H strings) {depth : Nat}
    (firstSize : first.length = 2 ^ depth) (secondSize : second.length = 2 ^ depth)
    (firstWithin : rootStrings H first ⊆ strings) (secondWithin : rootStrings H second ⊆ strings)
    (same : rootOf H first = rootOf H second) : first = second := by
  have payloads := eq_of_map_digest_eq distinct
    (List.Subset.trans (List.subset_append_left _ _) firstWithin)
    (List.Subset.trans (List.subset_append_left _ _) secondWithin)
  induction depth generalizing first second with
  | zero =>
    obtain ⟨payload, rfl⟩ := List.length_eq_one_iff.mp firstSize
    obtain ⟨other, rfl⟩ := List.length_eq_one_iff.mp secondSize
    simp only [rootOf, List.map_cons, List.map_nil, foldLevels] at same
    exact payloads (congrArg ([·]) same)
  | succ depth inductionHypothesis =>
    -- The strings of the first round are equal, and they tell the digests that were joined.
    have firstRest := List.Subset.trans (rootStrings_joined_subset firstSize) firstWithin
    have secondRest := List.Subset.trans (rootStrings_joined_subset secondSize) secondWithin
    have nodes : joined H first = joined H second := by
      refine inductionHypothesis (length_joined firstSize) (length_joined secondSize) firstRest
        secondRest ?_ ?_
      · rw [rootOf_joined firstSize, rootOf_joined secondSize, same]
      · exact eq_of_map_digest_eq distinct
          (List.Subset.trans (List.subset_append_left _ _) firstRest)
          (List.Subset.trans (List.subset_append_left _ _) secondRest)
    exact payloads <| pairStrings_injective (length_map_of_pow_succ firstSize)
      (length_map_of_pow_succ secondSize) nodes

/-- A list with the root of a longer one is what a round digests for that, unless there is a
collision. -/
theorem eq_round_of_rootOf_eq (distinct : ¬ Collides H strings) {depth count : Nat}
    (firstSize : first.length = 2 ^ depth) (secondSize : second.length = 2 ^ (depth + count))
    (firstWithin : rootStrings H first ⊆ strings) (secondWithin : rootStrings H second ⊆ strings)
    (same : rootOf H first = rootOf H second) : first = round H count second := by
  induction count generalizing second with
  | zero => exact eq_of_rootOf_eq distinct firstSize secondSize firstWithin secondWithin same
  | succ count inductionHypothesis =>
    refine inductionHypothesis (length_joined secondSize)
      (List.Subset.trans (rootStrings_joined_subset secondSize) secondWithin) ?_
    rw [rootOf_joined secondSize, same]

end

theorem rootOf_round {depth count : Nat} {leaves : List Bytes}
    (size : leaves.length = 2 ^ (depth + count)) :
    rootOf H (round H count leaves) = rootOf H leaves := by
  induction count generalizing leaves with
  | zero => rfl
  | succ count inductionHypothesis =>
    rw [round, inductionHypothesis (length_joined size), rootOf_joined size]

/-- The payloads are the byte strings that a round of joining digests for the root over a longer
list. -/
def IsRoundOf (H : DigestFunction) (payloads leaves : List Bytes) : Prop :=
  ∃ count, 0 < count ∧ leaves.length = payloads.length * 2 ^ count ∧
    payloads = round H count leaves

variable {first second : List Bytes}

theorem IsRoundOf.rootOf_eq (isRound : IsRoundOf H first second) {depth : Nat}
    (size : first.length = 2 ^ depth) : rootOf H first = rootOf H second := by
  obtain ⟨count, _, longer, rfl⟩ := isRound
  have shape : second.length = 2 ^ (depth + count) := by rw [longer, size, Nat.pow_add]
  exact rootOf_round shape

theorem length_of_mem_pairStrings {level : List Digest} {payload : Bytes}
    (member : payload ∈ pairStrings level) : payload.length = 64 := by
  fun_induction pairStrings level with
  | case1 left right rest inductionHypothesis =>
    rcases List.mem_cons.mp member with rfl | member
    · rw [List.length_append, left.length_bytes, right.length_bytes]
    · exact inductionHypothesis member
  | case2 => cases member

theorem length_of_mem_round {count : Nat} {leaves : List Bytes} {payload : Bytes}
    (member : payload ∈ round H (count + 1) leaves) : payload.length = 64 := by
  induction count generalizing leaves with
  | zero => exact length_of_mem_pairStrings member
  | succ count inductionHypothesis => exact inductionHypothesis member

/-- Such payloads are pairs of digests. -/
theorem IsRoundOf.length_eq (isRound : IsRoundOf H first second) {payload : Bytes}
    (member : payload ∈ first) : payload.length = 64 := by
  obtain ⟨count, positive, _, rfl⟩ := isRound
  obtain ⟨count, rfl⟩ := Nat.exists_eq_succ_of_ne_zero (Nat.ne_of_gt positive)
  exact length_of_mem_round member

theorem eq_or_isRoundOf {strings : List Bytes} (distinct : ¬ Collides H strings)
    {depth otherDepth : Nat} (firstSize : first.length = 2 ^ depth)
    (secondSize : second.length = 2 ^ otherDepth) (notLonger : depth ≤ otherDepth)
    (firstWithin : rootStrings H first ⊆ strings) (secondWithin : rootStrings H second ⊆ strings)
    (same : rootOf H first = rootOf H second) : first = second ∨ IsRoundOf H first second := by
  obtain ⟨count, rfl⟩ := Nat.exists_eq_add_of_le notLonger
  have isRound :=
    eq_round_of_rootOf_eq distinct firstSize secondSize firstWithin secondWithin same
  cases count with
  | zero => exact Or.inl isRound
  | succ count =>
    refine Or.inr ⟨count + 1, Nat.succ_pos count, ?_, isRound⟩
    rw [firstSize, secondSize, Nat.pow_add]

/-- Unless there is a collision, two lists have the same root exactly if they are equal or one is
what a round of joining digests for the other. -/
theorem root_eq_iff {firstRoot secondRoot : Digest} (firstMade : root H first = .ok firstRoot)
    (secondMade : root H second = .ok secondRoot)
    (distinct : ¬ Collides H (rootStrings H first ++ rootStrings H second)) :
    firstRoot = secondRoot ↔
      first = second ∨ IsRoundOf H first second ∨ IsRoundOf H second first := by
  obtain ⟨firstSize, rfl⟩ := of_root_eq_ok firstMade
  obtain ⟨secondSize, rfl⟩ := of_root_eq_ok secondMade
  have firstWithin := List.subset_append_left (rootStrings H first) (rootStrings H second)
  have secondWithin := List.subset_append_right (rootStrings H first) (rootStrings H second)
  constructor
  · intro same
    rcases Nat.le_total (Nat.log2 first.length) (Nat.log2 second.length) with notLonger | notLonger
    · exact (eq_or_isRoundOf distinct firstSize secondSize notLonger firstWithin secondWithin
        same).imp id Or.inl
    · exact (eq_or_isRoundOf distinct secondSize firstSize notLonger secondWithin firstWithin
        same.symm).imp Eq.symm Or.inr
  · rintro (rfl | isRound | isRound)
    · rfl
    · exact isRound.rootOf_eq firstSize
    · exact (isRound.rootOf_eq secondSize).symm

/-! ### A payload that is a pair of digests -/

/-- The byte string whose digest is the node over two payloads. -/
def pairPayload (H : DigestFunction) (left right : Bytes) : Bytes :=
  (H left).bytes ++ (H right).bytes

variable (H) in
theorem rootStrings_pair (left right : Bytes) :
    rootStrings H [left, right] = [left, right, pairPayload H left right] := by
  simp [rootStrings, levelStrings, pairStrings, pairUp, pairPayload]

variable (H) in
theorem rootStrings_singleton (payload : Bytes) : rootStrings H [payload] = [payload] := by
  simp [rootStrings, levelStrings]

/-- What is digested for the roots over two payloads and over the pair of their digests has three
different digests. -/
theorem not_collides_pairPayload :
    ¬ Collides Blake3.digest (rootStrings Blake3.digest [[1], [2]] ++
      rootStrings Blake3.digest [pairPayload Blake3.digest [1] [2]]) := by
  have apart :
      ([[1], [2], pairPayload Blake3.digest [1] [2]].map Blake3.digest).Nodup := by decide +kernel
  rw [rootStrings_pair, rootStrings_singleton]
  rintro ⟨first, firstMember, second, secondMember, different, same⟩
  refine different (List.inj_on_of_nodup_map apart ?_ ?_ same)
  · simpa using firstMember
  · simpa using secondMember

/-- Two payloads have the root of the one. -/
theorem root_eq_iff_pairPayload :
    rootOf Blake3.digest [[1], [2]] = rootOf Blake3.digest [pairPayload Blake3.digest [1] [2]] :=
  (root_eq_iff rfl rfl not_collides_pairPayload).mpr
    (Or.inr (Or.inr ⟨1, Nat.one_pos, rfl, rfl⟩))

/-- So a root does not tell two payloads from the one, although no digests coincide. -/
theorem root_not_committing :
    ∃ merkleRoot, root Blake3.digest [[1], [2]] = .ok merkleRoot ∧
      root Blake3.digest [pairPayload Blake3.digest [1] [2]] = .ok merkleRoot ∧
      [[1], [2]] ≠ [pairPayload Blake3.digest [1] [2]] ∧
      ¬ Collides Blake3.digest (rootStrings Blake3.digest [[1], [2]] ++
        rootStrings Blake3.digest [pairPayload Blake3.digest [1] [2]]) := by
  have size : ([[1], [2]] : List Bytes).length = 2 ^ (0 + 1) := rfl
  have shared : rootOf Blake3.digest [pairPayload Blake3.digest [1] [2]] =
      rootOf Blake3.digest [[1], [2]] := rootOf_joined size
  exact ⟨_, rfl, congrArg Except.ok shared, by simp, not_collides_pairPayload⟩

end Merkle

end StreamLedger
