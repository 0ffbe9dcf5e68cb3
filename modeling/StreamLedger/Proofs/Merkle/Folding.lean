/-
This file proves where a payload, an index and a path lead to a root: exactly where the path is
shorter than 64 and a tree of its depth has a leaf at the index. The fold then takes the path and no
more, so it neither lacks a sibling nor leaves one. A tree's size is a 64-bit word that the fold
halves until it is one or two; from a power of two it meets powers of two only, and the words say
the same as the depth.
-/
import StreamLedger.Proofs.Merkle

namespace StreamLedger.Merkle

variable {H : DigestFunction}

/-! ### The fold by depth -/

section

variable (leaf : Digest)

theorem foldPath_right {depth index : Nat} (onTheRight : 1 <<< depth ≤ index) (left : Digest)
    (siblings : List Digest) :
    foldPath H leaf (depth + 1) index (left :: siblings) =
      match foldPath H leaf depth (index - 1 <<< depth) siblings with
      | none => none
      | some (right, siblings) => some (node H left right, siblings) :=
  if_pos onTheRight

theorem foldPath_right_nil {depth index : Nat} (onTheRight : 1 <<< depth ≤ index) :
    foldPath H leaf (depth + 1) index [] = none :=
  if_pos onTheRight

theorem foldPath_left {depth index : Nat} (onTheLeft : ¬ 1 <<< depth ≤ index)
    (siblings : List Digest) :
    foldPath H leaf (depth + 1) index siblings =
      match foldPath H leaf depth index siblings with
      | none | some (_, []) => none
      | some (left, right :: siblings) => some (node H left right, siblings) :=
  if_neg onTheLeft

/-- A fold whose path is as long as the tree is deep takes the path and leaves what comes after. -/
theorem exists_foldPath {depth : Nat} {path : List Digest} (size : path.length = depth)
    (index : Nat) :
    ∃ root, ∀ rest, foldPath H leaf depth index (path ++ rest) = some (root, rest) := by
  induction depth generalizing path index with
  | zero =>
    obtain rfl : path = [] := List.eq_nil_of_length_eq_zero size
    exact ⟨leaf, fun _ => rfl⟩
  | succ depth inductionHypothesis =>
    by_cases onTheRight : 1 <<< depth ≤ index
    · obtain ⟨left, siblings, rfl⟩ := List.exists_cons_of_length_eq_add_one size
      obtain ⟨right, folded⟩ := inductionHypothesis (Nat.succ.inj size) (index - 1 <<< depth)
      refine ⟨node H left right, fun rest => ?_⟩
      rw [List.cons_append, foldPath_right leaf onTheRight, folded]
    · obtain ⟨siblings, right, rfl⟩ : ∃ siblings right, path = siblings ++ [right] :=
        ⟨path.dropLast, path.getLast (List.ne_nil_of_length_eq_add_one size),
          (List.dropLast_concat_getLast _).symm⟩
      rw [List.length_append] at size
      obtain ⟨left, folded⟩ := inductionHypothesis (Nat.succ.inj size) index
      refine ⟨node H left right, fun rest => ?_⟩
      rw [List.append_assoc, foldPath_left leaf onTheRight, folded]
      rfl

end

theorem rootFromPath_eq (payload : Bytes) (index : Nat) (path : List Digest) :
    ∃ root,
      (∀ rest, foldPath H (H payload) path.length index (path ++ rest) = some (root, rest)) ∧
      rootFromPath H payload index path =
        if path.length ≤ 63 ∧ index < 2 ^ path.length then some root else none := by
  obtain ⟨root, folded⟩ := exists_foldPath (H := H) (H payload) (Eq.refl path.length) index
  refine ⟨root, folded, ?_⟩
  have whole := folded []
  rw [List.append_nil] at whole
  have shallow : path.length < 64 ↔ path.length ≤ 63 := Nat.lt_succ_iff
  simp only [rootFromPath, Nat.one_shiftLeft, whole, shallow]

/-! ### The fold by halves -/

/-- Why the fold by halves ends without a root. -/
inductive Halt where
  /-- The size has no two halves of one size: it is zero, which halving never leaves, or odd. -/
  | unhalvable (size : UInt64)
  | noSibling
deriving DecidableEq

def nextSibling : List Digest → Except Halt (Digest × List Digest)
  | [] => .error .noSibling
  | sibling :: siblings => .ok (sibling, siblings)

/-- The fold of a leaf in a tree of `size` leaves, driven by the size alone, on 64-bit words. -/
def foldHalves (H : DigestFunction) (leaf : Digest) (size index : UInt64)
    (siblings : List Digest) : Except Halt (Digest × List Digest) :=
  if size = 1 then
    return (leaf, siblings)
  else if size = 2 then do
    let (sibling, siblings) ← nextSibling siblings
    return (if index = 0 then node H leaf sibling else node H sibling leaf, siblings)
  else if size = 0 ∨ size % 2 = 1 then
    .error (.unhalvable size)
  else if size / 2 ≤ index then do
    let (left, siblings) ← nextSibling siblings
    let (right, siblings) ← foldHalves H leaf (size / 2) (index - size / 2) siblings
    return (node H left right, siblings)
  else do
    let (left, siblings) ← foldHalves H leaf (size / 2) index siblings
    let (right, siblings) ← nextSibling siblings
    return (node H left right, siblings)
termination_by size.toNat
decreasing_by
  all_goals
    rename_i halvable _
    have positive : size.toNat ≠ 0 := fun zero => halvable (.inl (UInt64.toNat_inj.mp zero))
    rw [UInt64.toNat_div]
    exact Nat.div_lt_self (Nat.pos_of_ne_zero positive) (by decide)

/-- How the fold by halves ends, given how the fold by depth does. -/
def outcomeOf : Option (Digest × List Digest) → Except Halt (Digest × List Digest)
  | none => .error .noSibling
  | some result => .ok result

section

variable {leaf : Digest}

theorem foldHalves_two (index : UInt64) (siblings : List Digest) :
    foldHalves H leaf 2 index siblings = outcomeOf (foldPath H leaf 1 index.toNat siblings) := by
  rw [foldHalves, if_neg (by decide), if_pos rfl]
  by_cases first : index = 0
  · subst first
    cases siblings <;> rfl
  · have positive : 1 <<< 0 ≤ index.toNat :=
      Nat.pos_of_ne_zero fun zero => first (UInt64.toNat_inj.mp zero)
    simp only [if_neg first, foldPath, if_pos positive]
    cases siblings <;> rfl

/-- The half of a power of two above two is one again, and at least two. -/
theorem toNat_half {depth : Nat} {size : UInt64} (shape : size.toNat = 1 <<< (depth + 2)) :
    (size / 2).toNat = 1 <<< (depth + 1) := by
  rw [UInt64.toNat_div, shape, Nat.one_shiftLeft, Nat.one_shiftLeft, Nat.pow_succ]
  exact Nat.mul_div_cancel _ (by decide)

theorem foldHalves_of_pow {depth : Nat} {size : UInt64} (shape : size.toNat = 1 <<< (depth + 2))
    (index : UInt64) (siblings : List Digest) :
    foldHalves H leaf size index siblings =
      if 1 <<< (depth + 1) ≤ index.toNat then do
        let (left, siblings) ← nextSibling siblings
        let (right, siblings) ← foldHalves H leaf (size / 2) (index - size / 2) siblings
        return (node H left right, siblings)
      else do
        let (left, siblings) ← foldHalves H leaf (size / 2) index siblings
        let (right, siblings) ← nextSibling siblings
        return (node H left right, siblings) := by
  have positive := Nat.two_pow_pos depth
  have halfShape := toNat_half shape
  rw [Nat.one_shiftLeft, Nat.pow_succ, Nat.pow_succ] at shape
  have notOne : size ≠ 1 := by
    rintro rfl
    simp only [UInt64.reduceToNat] at shape
    omega
  have notTwo : size ≠ 2 := by
    rintro rfl
    simp only [UInt64.reduceToNat] at shape
    omega
  have halvable : ¬ (size = 0 ∨ size % 2 = 1) := by
    simp only [← UInt64.toNat_inj, UInt64.toNat_mod, UInt64.reduceToNat]
    omega
  rw [foldHalves, if_neg notOne, if_neg notTwo, if_neg halvable]
  simp only [UInt64.le_iff_toNat_le, halfShape]

/-- From a power of two the fold by halves meets powers of two only, down to one or two, and ends
as the fold by depth does. -/
theorem foldHalves_eq {depth : Nat} {size : UInt64} (shape : size.toNat = 1 <<< depth)
    (index : UInt64) (siblings : List Digest) :
    foldHalves H leaf size index siblings =
      outcomeOf (foldPath H leaf depth index.toNat siblings) := by
  match depth with
  | 0 =>
    obtain rfl : size = 1 := UInt64.toNat_inj.mp shape
    rw [foldHalves, if_pos rfl]
    rfl
  | 1 =>
    obtain rfl : size = 2 := UInt64.toNat_inj.mp shape
    exact foldHalves_two index siblings
  | depth + 2 =>
    have halfShape := toNat_half shape
    have halves := foldHalves_eq halfShape
    rw [foldHalves_of_pow shape]
    split
    · rename_i onTheRight
      have inRight : (index - size / 2).toNat = index.toNat - 1 <<< (depth + 1) := by
        rw [UInt64.toNat_sub_of_le, halfShape]
        rwa [UInt64.le_iff_toNat_le, halfShape]
      cases siblings with
      | nil =>
        rw [foldPath_right_nil leaf onTheRight]
        rfl
      | cons left siblings =>
        rw [foldPath_right leaf onTheRight]
        simp only [nextSibling, bind, Except.bind, halves, inRight]
        cases foldPath H leaf (depth + 1) (index.toNat - 1 <<< (depth + 1)) siblings <;> rfl
    · rename_i onTheLeft
      rw [foldPath_left leaf onTheLeft, halves]
      match foldPath H leaf (depth + 1) index.toNat siblings with
      | none => rfl
      | some (left, []) => rfl
      | some (left, right :: siblings) => rfl

end

/-! ### Where a path leads to a root -/

/-- The size of the tree that a path belongs to is a word as long as the path is shorter than 64. -/
theorem toNat_one_shiftLeft {depth : Nat} (shallow : depth ≤ 63) :
    ((1 : UInt64) <<< UInt64.ofNat depth).toNat = 1 <<< depth := by
  have lessThanBits : depth < 64 := Nat.lt_succ_of_le shallow
  have small : 2 ^ depth < 2 ^ 64 := Nat.pow_lt_pow_right (by decide) lessThanBits
  rw [UInt64.toNat_shiftLeft, UInt64.toNat_ofNat', UInt64.toNat_one,
    Nat.mod_eq_of_lt (by omega : depth < 2 ^ 64), Nat.mod_eq_of_lt lessThanBits,
    Nat.one_shiftLeft, Nat.mod_eq_of_lt small]

/-- A payload, an index and a path lead to a root exactly where the path is shorter than 64 and a
tree of its depth has a leaf at the index. The root is then what the fold ends with, by depth and by
halves alike: it takes the whole path, and what comes after the path is left. -/
theorem rootFromPath_total (H : DigestFunction) (payload : Bytes) (index : Nat)
    (path : List Digest) :
    ((∃ root, rootFromPath H payload index path = some root) ↔
      path.length ≤ 63 ∧ index < 2 ^ path.length) ∧
    ∀ root, rootFromPath H payload index path = some root ↔
      (path.length ≤ 63 ∧ index < 2 ^ path.length) ∧ ∀ rest,
        foldPath H (H payload) path.length index (path ++ rest) = some (root, rest) ∧
        foldHalves H (H payload) (1 <<< UInt64.ofNat path.length) (UInt64.ofNat index)
          (path ++ rest) = .ok (root, rest) := by
  obtain ⟨folded, takes, outcome⟩ := rootFromPath_eq (H := H) payload index path
  rw [outcome]
  by_cases domain : path.length ≤ 63 ∧ index < 2 ^ path.length
  · have small : 2 ^ path.length < 2 ^ 64 := Nat.pow_lt_pow_right (by decide) (by omega)
    have word : (UInt64.ofNat index).toNat = index :=
      UInt64.toNat_ofNat_of_lt' (Nat.lt_trans domain.2 small)
    have halves (siblings : List Digest) :
        foldHalves H (H payload) (1 <<< UInt64.ofNat path.length) (UInt64.ofNat index) siblings =
          outcomeOf (foldPath H (H payload) path.length index siblings) := by
      rw [foldHalves_eq (toNat_one_shiftLeft domain.1), word]
    rw [if_pos domain]
    simp only [halves, takes, outcomeOf]
    simp [domain]
  · simp [domain]

end StreamLedger.Merkle
