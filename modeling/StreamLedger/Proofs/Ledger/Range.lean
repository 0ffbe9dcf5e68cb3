/-
This file is about the ranges of blocks. A block takes the positions after the last one, which
computes without overflow, so blocks lie end to end. In blocks that do, the first one that does
not end before a position is found by halving.
-/
import Mathlib.Algebra.Group.Nat.Defs
import StreamLedger.Bisection
import StreamLedger.Block
import StreamLedger.BlockSize

namespace StreamLedger

/-! ### Bisection -/

section

variable {α : Type} {below : α → Bool} {first rest : List α} {pivot : α}

/-- If the pivot is below, the first element that is not comes after it. -/
theorem findIdx_of_pivot_below
    (partitioned : (first ++ pivot :: rest).Pairwise fun a b => below b = true → below a = true)
    (pivotBelow : below pivot = true) :
    (first ++ pivot :: rest).findIdx (fun element => !below element) =
      first.length + 1 + rest.findIdx fun element => !below element := by
  have across := (List.pairwise_append.mp partitioned).2.2
  have allBelow : ∀ element ∈ first, (!below element) = false := fun element member => by
    rw [across element member pivot List.mem_cons_self pivotBelow]
    rfl
  rw [List.findIdx_append, List.findIdx_eq_length_of_false allBelow, if_neg (Nat.lt_irrefl _),
    List.findIdx_cons, pivotBelow, Bool.not_true, cond_false]
  omega

/-- If the pivot is not below, the first element that is not comes before it, or it is the pivot. -/
theorem findIdx_of_pivot_not_below (pivotAbove : below pivot = false) :
    (first ++ pivot :: rest).findIdx (fun element => !below element) =
      first.findIdx fun element => !below element := by
  rw [List.findIdx_append]
  split
  · rfl
  · rename_i missing
    have atMost : first.findIdx (fun element => !below element) ≤ first.length :=
      List.findIdx_le_length
    rw [List.findIdx_cons, pivotAbove, Bool.not_false, cond_true]
    omega

end

/-- Halving finds the first element that is not below, if no element below comes after it. -/
theorem bisect_eq_findIdx {α : Type} (below : α → Bool) {steps : Nat} {list : List α}
    (enough : list.length ≤ steps)
    (partitioned : list.Pairwise fun a b => below b = true → below a = true) :
    bisect below steps list = list.findIdx fun element => !below element := by
  induction steps generalizing list with
  | zero =>
    obtain rfl := List.length_eq_zero_iff.mp (Nat.le_zero.mp enough)
    rfl
  | succ steps inductionHypothesis =>
    have whole := List.take_append_drop (list.length / 2) list
    have half : (list.take (list.length / 2)).length = list.length / 2 :=
      List.length_take_of_le (Nat.div_le_self _ _)
    have lengths := congrArg List.length whole
    rw [List.length_append, half] at lengths
    simp only [bisect]
    cases second : list.drop (list.length / 2) with
    | nil =>
      rw [second, List.length_nil] at lengths
      obtain rfl : list = [] := List.length_eq_zero_iff.mp (by omega)
      rfl
    | cons pivot rest =>
      rw [second] at whole lengths
      rw [List.length_cons] at lengths
      rw [← whole] at partitioned
      have restPartitioned := (List.pairwise_append.mp partitioned).2.1.of_cons
      have firstPartitioned := (List.pairwise_append.mp partitioned).1
      cases pivotIs : below pivot with
      | true =>
        have found := findIdx_of_pivot_below partitioned pivotIs
        rw [whole, half] at found
        simp only [if_pos pivotIs]
        rw [inductionHypothesis (by omega) restPartitioned, found]
      | false =>
        have found : (list.take (list.length / 2) ++ pivot :: rest).findIdx _ = _ :=
          findIdx_of_pivot_not_below pivotIs
        rw [whole] at found
        simp only [pivotIs, Bool.false_eq_true, if_false]
        rw [inductionHypothesis (by omega) firstPartitioned, found]

theorem getElem?_partitionPoint {α : Type} (below : α → Bool) {list : List α}
    (partitioned : list.Pairwise fun a b => below b = true → below a = true) :
    list[partitionPoint below list]? = list.find? fun element => !below element := by
  rw [partitionPoint, bisect_eq_findIdx below (Nat.le_refl _) partitioned,
    List.find?_eq_getElem?_findIdx]

/-! ### The next block's range -/

/-- A block takes as many transactions as a power of two within the limit. -/
theorem blockSize_eq_pow {available : Nat} (maxExponent : Nat) (waiting : 0 < available) :
    ∃ exponent ≤ maxExponent, blockSize available maxExponent = 2 ^ exponent := by
  refine ⟨min (Nat.log2 available) maxExponent, Nat.min_le_right _ _, ?_⟩
  rw [blockSize, if_neg (Nat.ne_of_gt waiting), Nat.one_shiftLeft]

theorem blockSize_pos {available : Nat} (maxExponent : Nat) (waiting : 0 < available) :
    0 < blockSize available maxExponent := by
  obtain ⟨exponent, _, size⟩ := blockSize_eq_pow maxExponent waiting
  rw [size]
  exact Nat.two_pow_pos exponent

/-- A number is at most what it was made from. -/
theorem toNat_ofNat_le (number : Nat) : (UInt64.ofNat number).toNat ≤ number := by
  rw [UInt64.toNat_ofNat']
  exact Nat.mod_le _ _

/-- The last position of a block that begins at `first` when there are `total` transactions. -/
def nextLast (first total : UInt64) (maxExponent : Nat) : UInt64 :=
  first + UInt64.ofNat (blockSize (total - first).toNat maxExponent) - 1

/-- Nothing overflows when the next block's range is computed, and the range is not empty. -/
theorem nextLast_spec {first total : UInt64} (maxExponent : Nat) (waiting : first < total) :
    (nextLast first total maxExponent).toNat + 1 =
        first.toNat + blockSize (total.toNat - first.toNat) maxExponent ∧
      0 < blockSize (total.toNat - first.toNat) maxExponent ∧
      first.toNat + blockSize (total.toNat - first.toNat) maxExponent ≤ total.toNat := by
  have below : first.toNat < total.toNat := UInt64.lt_iff_toNat_lt.mp waiting
  have available : (total - first).toNat = total.toNat - first.toNat :=
    UInt64.toNat_sub_of_le _ _ (UInt64.le_of_lt waiting)
  have positive := blockSize_pos maxExponent (Nat.sub_pos_of_lt below)
  have fits : blockSize (total.toNat - first.toNat) maxExponent ≤ total.toNat - first.toNat :=
    blockSize_le maxExponent
  have totalLt := total.toNat_lt
  have sizeFits : blockSize (total.toNat - first.toNat) maxExponent < 2 ^ 64 := by omega
  refine ⟨?_, positive, by omega⟩
  unfold nextLast
  rw [available, UInt64.toNat_sub, UInt64.toNat_add, UInt64.toNat_ofNat_of_lt' sizeFits,
    UInt64.toNat_one]
  omega

/-! ### Blocks end to end -/

/-- The blocks lie end to end: the first begins at `start`, each of the others begins where the
one before it has ended, and the last ends before `stop`. -/
def Tiles : (start : Nat) → List Block → (stop : Nat) → Prop
  | start, [], stop => start = stop
  | start, block :: rest, stop =>
    block.first.toNat = start ∧ start ≤ block.last.toNat ∧ Tiles (block.last.toNat + 1) rest stop

namespace Tiles

variable {start stop : Nat} {blocks : List Block}

theorem append_iff (block : Block) :
    Tiles start (blocks ++ [block]) stop ↔
      Tiles start blocks block.first.toNat ∧ block.first.toNat ≤ block.last.toNat ∧
        stop = block.last.toNat + 1 := by
  induction blocks generalizing start with
  | nil =>
    show _ ∧ _ ∧ block.last.toNat + 1 = stop ↔ start = block.first.toNat ∧ _
    constructor
    · rintro ⟨rfl, ordered, rfl⟩
      exact ⟨rfl, ordered, rfl⟩
    · rintro ⟨rfl, ordered, rfl⟩
      exact ⟨rfl, ordered, rfl⟩
  | cons head rest inductionHypothesis =>
    show _ ∧ _ ∧ Tiles _ (rest ++ [block]) stop ↔ (_ ∧ _ ∧ Tiles _ rest _) ∧ _
    rw [inductionHypothesis, and_assoc, and_assoc]

theorem start_le_stop (tiles : Tiles start blocks stop) : start ≤ stop := by
  induction blocks generalizing start with
  | nil => exact Nat.le_of_eq tiles
  | cons head rest inductionHypothesis =>
    obtain ⟨_, ordered, restTiles⟩ := tiles
    exact Nat.le_trans ordered (Nat.le_of_succ_le (inductionHypothesis restTiles))

/-- Each block covers at least one position. -/
theorem length_le (tiles : Tiles start blocks stop) : start + blocks.length ≤ stop := by
  induction blocks generalizing start with
  | nil => exact Nat.le_of_eq tiles
  | cons head rest inductionHypothesis =>
    obtain ⟨_, ordered, restTiles⟩ := tiles
    have restLength := inductionHypothesis restTiles
    rw [List.length_cons]
    omega

theorem mem_bounds (tiles : Tiles start blocks stop) {block : Block} (member : block ∈ blocks) :
    start ≤ block.first.toNat ∧ block.first.toNat ≤ block.last.toNat ∧ block.last.toNat < stop := by
  induction blocks generalizing start with
  | nil => cases member
  | cons head rest inductionHypothesis =>
    obtain ⟨begins, ordered, restTiles⟩ := tiles
    rcases List.mem_cons.mp member with rfl | member
    · exact ⟨Nat.le_of_eq begins.symm, begins ▸ ordered, restTiles.start_le_stop⟩
    · obtain ⟨lower, rest⟩ := inductionHypothesis restTiles member
      exact ⟨by omega, rest⟩

/-- A block ends before the blocks after it begin. -/
theorem pairwise (tiles : Tiles start blocks stop) :
    blocks.Pairwise fun a b => a.last.toNat < b.first.toNat := by
  induction blocks generalizing start with
  | nil => exact List.Pairwise.nil
  | cons head rest inductionHypothesis =>
    obtain ⟨_, _, restTiles⟩ := tiles
    exact List.pairwise_cons.mpr
      ⟨fun block member => (restTiles.mem_bounds member).1, inductionHypothesis restTiles⟩

theorem pairwise_last (tiles : Tiles start blocks stop) :
    blocks.Pairwise fun a b => a.last < b.last := by
  refine tiles.pairwise.imp_of_mem fun {a b} _ member apart => ?_
  have ordered := (tiles.mem_bounds member).2.1
  exact UInt64.lt_iff_toNat_lt.mpr (by omega)

end Tiles

end StreamLedger
