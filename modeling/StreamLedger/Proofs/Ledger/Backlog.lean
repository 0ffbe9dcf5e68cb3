/-
This file says how waiting transactions are split into blocks. A block takes the largest power of
two that waits, within the limit. So a backlog becomes as many blocks of the largest size as it has
room for, and after them one block for each bit of the rest, the highest first. The induction is on
what waits: a block is the first of the split, and the blocks that come later are the split of what
is left.
-/
import StreamLedger.Proofs.Ledger.Finalization

namespace StreamLedger

/-! ### The sizes of blocks -/

/-- The places below `bound` at which a number has a bit, the highest first. -/
def setBits (number bound : Nat) : List Nat :=
  (List.range bound).reverse.filter fun place => number.testBit place

/-- The sizes of the blocks that a backlog becomes: as many of the largest size as there is room
for, and then one for each bit of the rest. -/
def blockSizes (available maxExponent : Nat) : List Nat :=
  List.replicate (available / 2 ^ maxExponent) (2 ^ maxExponent) ++
    (setBits (available % 2 ^ maxExponent) maxExponent).map (2 ^ ·)

theorem setBits_succ (number bound : Nat) :
    setBits number (bound + 1) =
      if number.testBit bound then bound :: setBits number bound else setBits number bound := by
  rw [setBits, List.range_succ, List.reverse_append, List.reverse_singleton, List.singleton_append,
    List.filter_cons, ← setBits]

theorem setBits_zero (bound : Nat) : setBits 0 bound = [] := by
  simp [setBits]

/-- Bits from the limit of a number on are not set. -/
theorem setBits_of_lt {number exponent bound : Nat} (small : number < 2 ^ exponent)
    (after : exponent ≤ bound) : setBits number bound = setBits number exponent := by
  induction after with
  | refl => rfl
  | @step bound after inductionHypothesis =>
    have unset : number.testBit bound = false :=
      Nat.testBit_lt_two_pow (Nat.lt_of_lt_of_le small (Nat.pow_le_pow_right (by decide) after))
    rw [setBits_succ, unset, if_neg Bool.false_ne_true, inductionHypothesis]

/-- The highest bit of a number comes first. -/
theorem setBits_two_pow_add {rest exponent bound : Nat} (small : rest < 2 ^ exponent)
    (below : exponent < bound) :
    setBits (2 ^ exponent + rest) bound = exponent :: setBits rest bound := by
  have whole : 2 ^ exponent + rest < 2 ^ (exponent + 1) := by
    rw [Nat.pow_succ]
    omega
  have lower : setBits (2 ^ exponent + rest) exponent = setBits rest exponent := by
    refine List.filter_congr fun place member => ?_
    rw [List.mem_reverse, List.mem_range] at member
    rw [Nat.testBit_two_pow_add_gt member]
  rw [setBits_of_lt whole below, setBits_of_lt small (Nat.le_of_lt below), setBits_succ, lower,
    Nat.testBit_two_pow_add_eq, Nat.testBit_lt_two_pow small, Bool.not_false, if_pos rfl]

theorem blockSizes_zero (maxExponent : Nat) : blockSizes 0 maxExponent = [] := by
  simp [blockSizes, setBits_zero]

/-- The first block takes the largest size that is waiting, and the others split what is left. -/
theorem blockSizes_eq_cons {available : Nat} (maxExponent : Nat) (waiting : 0 < available) :
    blockSizes available maxExponent =
      blockSize available maxExponent ::
        blockSizes (available - blockSize available maxExponent) maxExponent := by
  have nonzero := Nat.ne_of_gt waiting
  have largest := Nat.two_pow_pos maxExponent
  rw [blockSize, if_neg nonzero, Nat.one_shiftLeft]
  by_cases full : 2 ^ maxExponent ≤ available
  · rw [Nat.min_eq_right ((Nat.le_log2 nonzero).mpr full), blockSizes, blockSizes,
      Nat.div_eq_sub_div largest full, List.replicate_succ, Nat.mod_eq_sub_mod full,
      List.cons_append]
  · have below := Nat.not_le.mp full
    have exponent : Nat.log2 available < maxExponent := (Nat.log2_lt nonzero).mpr below
    obtain ⟨rest, whole⟩ := Nat.exists_eq_add_of_le (Nat.log2_self_le nonzero)
    have small : rest < 2 ^ Nat.log2 available := by
      have bound := Nat.lt_log2_self (n := available)
      rw [Nat.pow_succ] at bound
      omega
    have left : available - 2 ^ Nat.log2 available = rest := by omega
    have restBelow : rest < 2 ^ maxExponent := by omega
    rw [Nat.min_eq_left (Nat.le_of_lt exponent), left, blockSizes, blockSizes,
      Nat.div_eq_of_lt below, Nat.div_eq_of_lt restBelow, Nat.mod_eq_of_lt below,
      Nat.mod_eq_of_lt restBelow, List.replicate_zero, List.nil_append, List.nil_append]
    conv_lhs => rw [whole, setBits_two_pow_add small exponent, List.map_cons]

example : blockSizes 15 2 = [4, 4, 4, 2, 1] := by decide +kernel

theorem blockSizes_eq_nil_iff {available maxExponent : Nat} :
    blockSizes available maxExponent = [] ↔ available = 0 := by
  refine ⟨fun none => (Nat.eq_zero_or_pos available).resolve_right fun waiting => ?_, ?_⟩
  · rw [blockSizes_eq_cons maxExponent waiting] at none
    cases none
  · rintro rfl
    exact blockSizes_zero maxExponent

/-! ### The next block -/

namespace IndexedLedger

variable {H : DigestFunction} {ledger : IndexedLedger}

/-- The transactions after the last block. -/
def waiting (ledger : IndexedLedger) : List Transaction :=
  ledger.transactions.drop ledger.covered

theorem length_waiting (ledger : IndexedLedger) :
    ledger.waiting.length = ledger.transactions.length - ledger.covered := List.length_drop

/-- A ledger has become another by one more block, published, over so many of the transactions that
wait. -/
structure Packs (ledger changed : IndexedLedger) (entry : BlockEntry) (size : Nat) : Prop where
  transactions : changed.transactions = ledger.transactions
  entries : changed.entries = ledger.entries ++ [entry]
  published : entry.block.isFinalized = true
  batch : entry.transactions = ledger.waiting.take size
  covered : changed.covered = ledger.covered + size

namespace Packs

variable {changed : IndexedLedger} {entry : BlockEntry} {size : Nat}

/-- The last block is published again. -/
theorem settled (packs : ledger.Packs changed entry size) :
    ∀ block ∈ changed.blocks.getLast?, block.isFinalized = true := by
  rw [← getLast?_map_block, packs.entries, List.getLast?_concat]
  rintro block ⟨⟩
  exact packs.published

/-- What waited is the new block's transactions and what waits now. -/
theorem waiting_eq (packs : ledger.Packs changed entry size) :
    ledger.waiting = entry.transactions ++ changed.waiting := by
  rw [waiting, waiting, packs.batch, packs.transactions, packs.covered, ← List.drop_drop, waiting,
    List.take_append_drop]

theorem length_batch (packs : ledger.Packs changed entry size)
    (within : size ≤ ledger.waiting.length) : entry.transactions.length = size := by
  rw [packs.batch, List.length_take, Nat.min_eq_left within]

/-- The first part of the split has become the new block, and the others are the split of what
waits now. -/
theorem blockSizes_eq {maxExponent : Nat}
    (packs : ledger.Packs changed entry (blockSize ledger.waiting.length maxExponent))
    (waits : 0 < ledger.waiting.length) :
    blockSizes ledger.waiting.length maxExponent =
      entry.transactions.length :: blockSizes changed.waiting.length maxExponent := by
  have batch := packs.length_batch (blockSize_le maxExponent)
  have whole := congrArg List.length packs.waiting_eq
  rw [List.length_append, batch] at whole
  have left : ledger.waiting.length - blockSize ledger.waiting.length maxExponent =
      changed.waiting.length := by omega
  rw [blockSizes_eq_cons maxExponent waits, batch, left]

end Packs

/-- The ends of the next block, if all positions have numbers of their own. -/
theorem last_nextBlock (maxExponent : Nat) (header : Header)
    (small : ledger.transactions.length < 2 ^ 64)
    (waiting : Block.nextPosition ledger.blocks.getLast? <
      UInt64.ofNat ledger.transactions.length) :
    (ledger.nextBlock maxExponent header).last.toNat + 1 =
      ledger.covered + blockSize ledger.waiting.length maxExponent := by
  have ends := (nextLast_spec maxExponent waiting).1
  rw [UInt64.toNat_ofNat_of_lt' small] at ends
  rw [length_waiting]
  exact ends

/-- If no transaction waits, no block comes. -/
theorem propose_of_idle (settled : ∀ block ∈ ledger.blocks.getLast?, block.isFinalized = true)
    (idle : ledger.waiting = []) (maxExponent : Nat) (now : Int64) :
    ledger.propose H maxExponent now = .ok (none, ledger) := by
  rcases propose_of_settled (H := H) settled maxExponent now with ⟨_, answered⟩ | ⟨_, above, _⟩
  · exact answered
  · have below := UInt64.lt_iff_toNat_lt.mp above
    have total := toNat_ofNat_le ledger.transactions.length
    exact absurd (Nat.lt_of_lt_of_le below total) (Nat.not_lt.mpr (List.drop_eq_nil_iff.mp idle))

/-- A new block over the first transactions that wait takes any publication. -/
theorem Sound.packs_extended {block : Block} (sound : (ledger.extended H block).Sound H)
    (waits : block.publication = none) (begins : block.first.toNat = ledger.covered) {size : Nat}
    (ends : block.last.toNat + 1 = ledger.covered + size) (publication : Publication) :
    ∃ changed entry, (ledger.extended H block).finalize (block.digest H) publication = .ok changed ∧
      ledger.Packs changed entry size ∧ entry.block.digest H = block.digest H ∧
      entry.transactions = ledger.inBlock block := by
  have last : (ledger.extended H block).blocks.getLast? = some block := List.getLast?_concat
  obtain ⟨changed, accepted⟩ := sound.finalize_last last waits publication
  obtain ⟨earlier, other, whole, _, _, same⟩ := sound.of_finalize_eq_ok accepted
  obtain ⟨rfl, rfl⟩ : ledger.blocks = earlier ∧ block = other := by
    simpa using List.append_inj' whole rfl
  have tiles := (sound.of_finalize accepted).tiles
  subst same
  have listed : (ledger.extended H { block with publication := some publication }).entries = _ :=
    entries_extended _
  refine ⟨_, _, accepted, ⟨rfl, listed, rfl, ?_, ?_⟩, rfl, rfl⟩
  · show (ledger.transactions.drop block.first.toNat).take
      (block.last.toNat + 1 - block.first.toNat) = _
    rw [begins, ends, Nat.add_sub_cancel_left, waiting]
  · rw [((Tiles.append_iff _).mp tiles).2.2]
    exact ends

/-- If transactions wait, the next block takes the largest power of two of them that the limit
allows, and its publication is accepted, whatever it is. -/
theorem Sound.packs (sound : ledger.Sound H)
    (settled : ∀ block ∈ ledger.blocks.getLast?, block.isFinalized = true)
    (waits : 0 < ledger.waiting.length)
    (small : ledger.transactions.length < 2 ^ 64) (maxExponent : Nat) (now : Int64) :
    ∃ proposal offering, ledger.propose H maxExponent now = .ok (some proposal, offering) ∧
      ∀ publication, ∃ changed entry,
        offering.finalize (proposal.digest H) publication = .ok changed ∧
        ledger.Packs changed entry (blockSize ledger.waiting.length maxExponent) ∧
        entry.block.digest H = proposal.digest H ∧
        entry.transactions.map (·.digest) = proposal.transactions := by
  rcases propose_of_settled (H := H) settled maxExponent now with
    ⟨idle, _⟩ | ⟨header, above, _, answered⟩
  · rw [UInt64.le_iff_toNat_le, UInt64.toNat_ofNat_of_lt' small] at idle
    rw [length_waiting] at waits
    exact absurd idle (Nat.not_le.mpr (Nat.lt_of_sub_pos waits))
  · have soundOffering : (ledger.extended H (ledger.nextBlock maxExponent header)).Sound H :=
      sound.extended settled above
    refine ⟨_, _, answered, fun publication => ?_⟩
    obtain ⟨changed, entry, accepted, packs, named, batch⟩ :=
      soundOffering.packs_extended rfl (nextBlock_range maxExponent header above).1
        (last_nextBlock maxExponent header small above) publication
    exact ⟨changed, entry, accepted, packs, named, congrArg (List.map (·.digest)) batch⟩

end IndexedLedger

end StreamLedger
