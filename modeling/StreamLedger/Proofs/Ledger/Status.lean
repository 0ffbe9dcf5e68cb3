/-
This file says how the status of a transaction goes on in a ledger in memory. A position is
covered by at most one block, so a status changes only where something happens to the transaction
itself: storing it commits it, making a block changes nothing, and publishing a block finalizes
the transactions that the block was offered with, and no others.
-/
import StreamLedger.Proofs.Ledger.Sound

namespace StreamLedger

namespace IndexedLedger

variable {H : DigestFunction} {ledger : IndexedLedger}

/-! ### The block of a position -/

theorem contains_iff_toNat {block : Block} {number : UInt64} :
    block.contains number = true ↔
      block.first.toNat ≤ number.toNat ∧ number.toNat ≤ block.last.toNat := by
  rw [Block.contains, Bool.and_eq_true, decide_eq_true_eq, decide_eq_true_eq,
    UInt64.le_iff_toNat_le, UInt64.le_iff_toNat_le]

theorem contains_iff {block : Block} {position : Nat} (small : position < 2 ^ 64) :
    block.contains (UInt64.ofNat position) = true ↔
      block.first.toNat ≤ position ∧ position ≤ block.last.toNat := by
  rw [contains_iff_toNat, UInt64.toNat_ofNat_of_lt' small]

/-- The block found for a position is the one that contains it. -/
theorem Sound.covering_eq_some_iff_contains (sound : Sound H ledger) {position : Nat}
    {block : Block} :
    ledger.covering position = some block ↔
      block ∈ ledger.blocks ∧ block.contains (UInt64.ofNat position) = true := by
  rw [sound.covering_eq, Option.filter_eq_some_iff]
  refine and_congr_left fun within => ⟨List.mem_of_find?_eq_some, fun member => ?_⟩
  rw [Block.contains, Bool.and_eq_true, decide_eq_true_eq] at within
  obtain ⟨earlier, later, whole⟩ := List.append_of_mem member
  have apart := sound.tiles.pairwise
  rw [whole, List.pairwise_append] at apart
  refine List.find?_eq_some_iff_append.mpr ⟨within.2, earlier, later, whole,
    fun other otherMember => ?_⟩
  have before : other.last < block.first :=
    UInt64.lt_iff_toNat_lt.mpr (apart.2.2 other otherMember block List.mem_cons_self)
  rw [Bool.not_eq_true', decide_eq_false_iff_not, UInt64.not_le]
  exact UInt64.lt_of_lt_of_le before within.1

/-- A small position lies in the block's range. -/
theorem Sound.covering_eq_some_iff (sound : Sound H ledger) {position : Nat} {block : Block}
    (small : position < 2 ^ 64) :
    ledger.covering position = some block ↔
      block ∈ ledger.blocks ∧ block.first.toNat ≤ position ∧ position ≤ block.last.toNat := by
  rw [sound.covering_eq_some_iff_contains, contains_iff small]

/-- A position in the ledger is small enough for its number. -/
theorem Sound.lt_of_lookup (sound : Sound H ledger) {name : Digest} {position : Nat}
    (found : ledger.positions.lookup name = some position) :
    position < ledger.transactions.length := by
  obtain ⟨transaction, standing, _⟩ :=
    Option.map_eq_some_iff.mp ((sound.positions name position).mp found)
  exact (List.getElem?_eq_some_iff.mp standing).1

/-! ### Known transactions -/

theorem status_eq_unknown_iff (name : Digest) :
    ledger.status name = .unknown ↔ ledger.positions.lookup name = none := by
  unfold status
  cases ledger.positions.lookup name with
  | none => simp
  | some position =>
    simp only [reduceCtorEq, iff_false]
    split
    · split <;> simp
    · simp

/-! ### What changes a status -/

/-- The position of the next transaction is in no block. -/
theorem Sound.covering_length (sound : Sound H ledger)
    (small : ledger.transactions.length < 2 ^ 64) :
    ledger.covering ledger.transactions.length = none := by
  refine Option.eq_none_iff_forall_ne_some.mpr fun block found => ?_
  obtain ⟨member, _, before⟩ := (sound.covering_eq_some_iff small).mp found
  have ends := (sound.tiles.mem_bounds member).2.2
  have within := sound.covered_le
  omega

theorem Sound.status_appended (sound : Sound H ledger) (transaction : Transaction)
    (small : ledger.transactions.length < 2 ^ 64) (name : Digest) :
    (ledger.appended transaction).status name =
      if name = transaction.digest then .committed else ledger.status name := by
  have covering : ∀ position, (ledger.appended transaction).covering position =
      ledger.covering position := fun position => rfl
  have positions : (ledger.appended transaction).positions.lookup name =
      if name = transaction.digest then some ledger.transactions.length
      else ledger.positions.lookup name := lookup_cons_eq_ite name _ _
  simp only [status, covering, positions]
  by_cases same : name = transaction.digest
  · simp only [if_pos same, sound.covering_length small]
  · simp only [if_neg same]

/-- A block that nobody has published yet moves no status. -/
theorem Sound.status_extended (sound : Sound H ledger) {block : Block}
    (soundAfter : Sound H (ledger.extended H block)) (pending : block.isFinalized = false)
    (small : ledger.transactions.length < 2 ^ 64) (name : Digest) :
    (ledger.extended H block).status name = ledger.status name := by
  simp only [status]
  rw [show (ledger.extended H block).positions = ledger.positions from rfl]
  cases found : ledger.positions.lookup name with
  | none => rfl
  | some position =>
    have positionSmall := Nat.lt_trans (sound.lt_of_lookup found) small
    simp only
    cases before : ledger.covering position with
    | some other =>
      obtain ⟨member, within⟩ := (sound.covering_eq_some_iff positionSmall).mp before
      have after : (ledger.extended H block).covering position = some other :=
        (soundAfter.covering_eq_some_iff positionSmall).mpr
          ⟨List.mem_append_left _ member, within⟩
      rw [after]
    | none =>
      cases after : (ledger.extended H block).covering position with
      | none => rfl
      | some other =>
        obtain ⟨member, within⟩ := (soundAfter.covering_eq_some_iff positionSmall).mp after
        rcases List.mem_append.mp member with member | member
        · have found := (sound.covering_eq_some_iff positionSmall).mpr ⟨member, within⟩
          rw [before] at found
          cases found
        · rw [List.mem_singleton.mp member]
          simp only [pending]
          rfl

/-- The transactions of a block are those whose positions lie in its range. -/
theorem Sound.mem_inBlock_iff (sound : Sound H ledger) {block : Block} (name : Digest) :
    name ∈ (ledger.inBlock block).map (·.digest) ↔
      ∃ position, ledger.positions.lookup name = some position ∧
        block.first.toNat ≤ position ∧ position ≤ block.last.toNat := by
  constructor
  · intro member
    obtain ⟨transaction, transactionMember, rfl⟩ := List.mem_map.mp member
    obtain ⟨place, standing⟩ := List.mem_iff_getElem?.mp transactionMember
    rw [inBlock, slice, List.getElem?_take] at standing
    split at standing
    · rw [List.getElem?_drop] at standing
      refine ⟨block.first.toNat + place, (sound.positions _ _).mpr ?_, by omega, by omega⟩
      rw [standing]
      rfl
    · cases standing
  · rintro ⟨position, found, after, before⟩
    obtain ⟨transaction, standing, rfl⟩ :=
      Option.map_eq_some_iff.mp ((sound.positions name position).mp found)
    refine List.mem_map_of_mem (List.mem_iff_getElem?.mpr ⟨position - block.first.toNat, ?_⟩)
    rw [inBlock, slice, List.getElem?_take_of_lt (by omega), List.getElem?_drop,
      Nat.add_sub_cancel' after, standing]

/-- Publishing the last block finalizes its transactions, and no others. -/
theorem Sound.status_finalized (sound : Sound H ledger) {earlier : List Block} {block : Block}
    (whole : ledger.blocks = earlier ++ [block]) (publication : Publication)
    (small : ledger.transactions.length < 2 ^ 64) (name : Digest) :
    IndexedLedger.status
        { ledger with blocks := earlier ++ [{ block with publication := some publication }] } name =
      if name ∈ (ledger.inBlock block).map (·.digest) then .finalized else ledger.status name := by
  have soundAfter := sound.finalized whole publication
  generalize changedIs : ({ ledger with
    blocks := earlier ++ [{ block with publication := some publication }] } : IndexedLedger) = changed
    at soundAfter ⊢
  have blocks : changed.blocks = earlier ++ [{ block with publication := some publication }] := by
    rw [← changedIs]
  have positions : changed.positions = ledger.positions := by
    rw [← changedIs]
  by_cases offered : name ∈ (ledger.inBlock block).map (·.digest)
  · obtain ⟨position, found, within⟩ := sound.mem_inBlock_iff name |>.mp offered
    have positionSmall := Nat.lt_trans (sound.lt_of_lookup found) small
    have after : changed.covering position = some { block with publication := some publication } :=
      (soundAfter.covering_eq_some_iff positionSmall).mpr ⟨by simp [blocks], within⟩
    rw [if_pos offered]
    simp only [status, positions, found, after]
    rfl
  · rw [if_neg offered]
    simp only [status, positions]
    cases found : ledger.positions.lookup name with
    | none => rfl
    | some position =>
      have positionSmall := Nat.lt_trans (sound.lt_of_lookup found) small
      have outside : ¬ (block.first.toNat ≤ position ∧ position ≤ block.last.toNat) :=
        fun within => offered (sound.mem_inBlock_iff name |>.mpr ⟨position, found, within⟩)
      have same : changed.covering position = ledger.covering position := by
        ext other
        rw [soundAfter.covering_eq_some_iff positionSmall, sound.covering_eq_some_iff positionSmall,
          blocks, whole, List.mem_append, List.mem_append, List.mem_singleton, List.mem_singleton]
        constructor
        · rintro ⟨member | rfl, range⟩
          · exact ⟨Or.inl member, range⟩
          · exact absurd range outside
        · rintro ⟨member | rfl, range⟩
          · exact ⟨Or.inl member, range⟩
          · exact absurd range outside
      simp only [same]

end IndexedLedger

end StreamLedger
