/-
This file proves that a Merkle path leads back to the root. Folding a list of digests level by
level gives the same as folding its two halves and joining them, since joining neighbours never
reaches across the middle. So the root over `2 ^ (depth + 1)` payloads is the node over the roots of
its halves, which is the step that a path takes.
-/
import Mathlib.Algebra.Group.Nat.Defs
import StreamLedger.Merkle

namespace StreamLedger.Merkle

variable {H : DigestFunction}

/-! ### The root and its halves -/

theorem foldLevels_pairUp (level : List Digest) :
    foldLevels H (pairUp H level) = foldLevels H level := by
  cases level with
  | nil => rfl
  | cons left rest =>
    cases rest with
    | nil => rfl
    | cons right rest => rw [foldLevels.eq_3]

theorem exists_pair {α : Type} {half : Nat} {level : List α} (size : level.length = 2 * (half + 1)) :
    ∃ first second rest, level = first :: second :: rest ∧ rest.length = 2 * half := by
  match level, size with
  | first :: second :: rest, size =>
    simp only [List.length_cons] at size
    exact ⟨first, second, rest, rfl, by omega⟩

/-- Neighbours are joined on both sides of the middle, and none across it. -/
theorem pairUp_append {half : Nat} {left : List Digest} (size : left.length = 2 * half)
    (right : List Digest) : pairUp H (left ++ right) = pairUp H left ++ pairUp H right := by
  induction half generalizing left with
  | zero =>
    obtain rfl : left = [] := List.eq_nil_of_length_eq_zero size
    rfl
  | succ half inductionHypothesis =>
    obtain ⟨first, second, rest, rfl, restSize⟩ := exists_pair size
    exact congrArg (node H first second :: ·) (inductionHypothesis restSize)

theorem length_pairUp {half : Nat} {level : List Digest} (size : level.length = 2 * half) :
    (pairUp H level).length = half := by
  induction half generalizing level with
  | zero =>
    obtain rfl : level = [] := List.eq_nil_of_length_eq_zero size
    rfl
  | succ half inductionHypothesis =>
    obtain ⟨first, second, rest, rfl, restSize⟩ := exists_pair size
    exact congrArg (· + 1) (inductionHypothesis restSize)

theorem foldLevels_append {depth : Nat} {left right : List Digest}
    (leftSize : left.length = 2 ^ depth) (rightSize : right.length = 2 ^ depth) :
    foldLevels H (left ++ right) = node H (foldLevels H left) (foldLevels H right) := by
  induction depth generalizing left right with
  | zero =>
    obtain ⟨first, rfl⟩ := List.length_eq_one_iff.mp leftSize
    obtain ⟨second, rfl⟩ := List.length_eq_one_iff.mp rightSize
    rw [List.singleton_append, foldLevels.eq_3]
    simp only [pairUp, foldLevels]
  | succ depth inductionHypothesis =>
    rw [Nat.pow_succ, Nat.mul_comm] at leftSize rightSize
    rw [← foldLevels_pairUp, pairUp_append leftSize,
      inductionHypothesis (length_pairUp leftSize) (length_pairUp rightSize), foldLevels_pairUp,
      foldLevels_pairUp]

theorem rootOf_append {depth : Nat} {left right : List Bytes} (leftSize : left.length = 2 ^ depth)
    (rightSize : right.length = 2 ^ depth) :
    rootOf H (left ++ right) = node H (rootOf H left) (rootOf H right) := by
  rw [rootOf, List.map_append]
  exact foldLevels_append (by rwa [List.length_map]) (by rwa [List.length_map])

theorem exists_halves {depth : Nat} {leaves : List Bytes} (size : leaves.length = 2 ^ (depth + 1)) :
    ∃ left right, leaves = left ++ right ∧ left.length = 2 ^ depth ∧ right.length = 2 ^ depth := by
  rw [Nat.pow_succ'] at size
  refine ⟨leaves.take (2 ^ depth), leaves.drop (2 ^ depth), (List.take_append_drop _ _).symm, ?_, ?_⟩
  · rw [List.length_take]
    omega
  · rw [List.length_drop]
    omega

/-! ### Shapes -/

theorem isPowerOfTwo_iff (count : Nat) :
    isPowerOfTwo count = true ↔ count = 2 ^ Nat.log2 count := by
  rw [isPowerOfTwo, Nat.one_shiftLeft, Bool.and_eq_true, bne_iff_ne, beq_iff_eq]
  constructor
  · exact fun shape => shape.2.symm
  · intro shape
    refine ⟨fun zero => ?_, shape.symm⟩
    have positive := Nat.two_pow_pos (Nat.log2 count)
    omega

theorem isPowerOfTwo_two_pow (depth : Nat) : isPowerOfTwo (2 ^ depth) = true := by
  rw [isPowerOfTwo_iff, Nat.log2_two_pow]

/-- What it means that payloads have a root. -/
theorem of_root_eq_ok {leaves : List Bytes} {merkleRoot : Digest}
    (made : root H leaves = .ok merkleRoot) :
    leaves.length = 2 ^ Nat.log2 leaves.length ∧ rootOf H leaves = merkleRoot := by
  unfold root at made
  split at made
  · rename_i shape
    exact ⟨(isPowerOfTwo_iff _).mp shape, Except.ok.inj made⟩
  · cases made

/-! ### Paths -/

theorem length_pathIn (depth : Nat) (leaves : List Bytes) (index : Nat) :
    (pathIn H depth leaves index).length = depth := by
  induction depth generalizing leaves index with
  | zero => rfl
  | succ depth inductionHypothesis =>
    simp only [pathIn]
    split
    · rw [List.length_cons, inductionHypothesis]
    · rw [List.length_append, inductionHypothesis, List.length_singleton]

/-- A path begins with the root of the left half or ends with that of the right one. -/
theorem pathIn_append {depth : Nat} {left : List Bytes} (leftSize : left.length = 2 ^ depth)
    (right : List Bytes) (index : Nat) :
    pathIn H (depth + 1) (left ++ right) index =
      if 2 ^ depth ≤ index then rootOf H left :: pathIn H depth right (index - 2 ^ depth)
      else pathIn H depth left index ++ [rootOf H right] := by
  simp only [pathIn, Nat.one_shiftLeft, List.take_left' leftSize, List.drop_left' leftSize]

/-- The fold of a leaf takes its path, gives the root and leaves what comes after the path. -/
theorem foldPath_pathIn {depth index : Nat} {leaves : List Bytes} {payload : Bytes}
    (size : leaves.length = 2 ^ depth) (standing : leaves[index]? = some payload)
    (rest : List Digest) :
    foldPath H (H payload) depth index (pathIn H depth leaves index ++ rest) =
      some (rootOf H leaves, rest) := by
  induction depth generalizing leaves index rest with
  | zero =>
    obtain ⟨only, rfl⟩ := List.length_eq_one_iff.mp size
    obtain ⟨bound, rfl⟩ := List.getElem?_eq_some_iff.mp standing
    obtain rfl : index = 0 := Nat.lt_one_iff.mp bound
    simp [foldPath, pathIn, rootOf, foldLevels]
  | succ depth inductionHypothesis =>
    obtain ⟨left, right, rfl, leftSize, rightSize⟩ := exists_halves size
    rw [pathIn_append leftSize, rootOf_append leftSize rightSize]
    simp only [foldPath, Nat.one_shiftLeft]
    by_cases onTheRight : 2 ^ depth ≤ index
    · rw [List.getElem?_append_right (by omega), leftSize] at standing
      simp only [if_pos onTheRight, List.cons_append, inductionHypothesis rightSize standing]
    · rw [List.getElem?_append_left (by omega)] at standing
      simp only [if_neg onTheRight, List.append_assoc, List.singleton_append,
        inductionHypothesis leftSize standing]

theorem path_eq_ok {depth index : Nat} {leaves : List Bytes} (size : leaves.length = 2 ^ depth)
    (bound : index < leaves.length) :
    path H leaves index = .ok (pathIn H depth leaves index) := by
  have shape : isPowerOfTwo leaves.length = true := by rw [size, isPowerOfTwo_two_pow]
  rw [path, if_pos shape, if_pos bound, size, Nat.log2_two_pow]

/-- The path of a payload leads to the root. A tree that is too deep for the fold has `2 ^ 64`
leaves. -/
theorem rootFromPath_pathIn {depth index : Nat} {leaves : List Bytes} {payload : Bytes}
    (size : leaves.length = 2 ^ depth) (shallow : depth < 64)
    (standing : leaves[index]? = some payload) :
    rootFromPath H payload index (pathIn H depth leaves index) = some (rootOf H leaves) := by
  obtain ⟨bound, _⟩ := List.getElem?_eq_some_iff.mp standing
  have folded := foldPath_pathIn (H := H) size standing []
  rw [List.append_nil] at folded
  rw [rootFromPath, length_pathIn, Nat.one_shiftLeft, ← size, if_pos ⟨shallow, bound⟩, folded]

theorem depth_lt_of_length_lt {depth : Nat} {leaves : List Bytes}
    (size : leaves.length = 2 ^ depth) (small : leaves.length < 2 ^ 64) : depth < 64 := by
  rw [size] at small
  exact (Nat.pow_lt_pow_iff_right (by decide)).mp small

/-- Every payload of a tree has a path, as long as the tree is deep, that leads to the root. -/
theorem path_spec {leaves : List Bytes} {index : Nat} {payload : Bytes}
    (size : leaves.length = 2 ^ Nat.log2 leaves.length) (small : leaves.length < 2 ^ 64)
    (standing : leaves[index]? = some payload) :
    ∃ siblings, path H leaves index = .ok siblings ∧
      siblings.length = Nat.log2 leaves.length ∧
      rootFromPath H payload index siblings = some (rootOf H leaves) :=
  ⟨_, path_eq_ok size (List.getElem?_eq_some_iff.mp standing).1, length_pathIn _ _ _,
    rootFromPath_pathIn size (depth_lt_of_length_lt size small) standing⟩

end StreamLedger.Merkle
