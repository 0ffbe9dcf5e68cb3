/-
This file proves that a name means one block. A header says nothing of its height, so two blocks
with the same payloads, made at the same time, differ only in what came before them. If blocks at
two places share a name, then either their headers differ, and two headers have one digest, or they
refer to the same name before them, and the places before share a name in turn. Going back, the
earlier of the two is in the end the first block, which refers to zero, and so the other comes after
a block that is named zero. In every other ledger a name leads to the block that bears it, although
the index from names to blocks keeps one block for each name.
-/
import Mathlib.Data.List.Nodup
import StreamLedger.Proofs.Ledger.Proving

namespace StreamLedger

namespace Ledger

/-- Among the blocks there are two different headers with one digest, or a header whose digest is
zero. -/
def Confusable (H : DigestFunction) (entries : List BlockEntry) : Prop :=
  (∃ first ∈ entries, ∃ second ∈ entries, first.block.header ≠ second.block.header ∧
      first.block.header.digest H = second.block.header.digest H) ∨
    ∃ entry ∈ entries, entry.block.header.digest H = Digest.zero

instance (H : DigestFunction) (entries : List BlockEntry) : Decidable (Confusable H entries) :=
  inferInstanceAs (Decidable (_ ∨ _))

section

variable {H : DigestFunction} {transactions : List Transaction} {covered : Nat}
  {entries : List BlockEntry}

theorem header_eq_of_not_confusable (clear : ¬ Confusable H entries) {first second : BlockEntry}
    (member : first ∈ entries) (otherMember : second ∈ entries)
    (same : first.block.digest H = second.block.digest H) :
    first.block.header = second.block.header :=
  Classical.byContradiction fun different =>
    clear (Or.inl ⟨first, member, second, otherMember, different, same⟩)

/-- A block has a name of its own, different from those of all later blocks. -/
theorem digest_ne_of_later (chain : Chain H transactions covered entries)
    (clear : ¬ Confusable H entries) {place gap : Nat} {entry later : BlockEntry}
    (standing : entries[place]? = some entry) (laterStanding : entries[place + gap + 1]? = some later) :
    entry.block.digest H ≠ later.block.digest H := by
  induction place generalizing entry later with
  | zero =>
    intro same
    have headers := header_eq_of_not_confusable clear (List.mem_of_getElem? standing)
      (List.mem_of_getElem? laterStanding) same
    -- The first header refers to zero, and the later one to the block before it.
    have bound := (List.getElem?_eq_some_iff.mp laterStanding).1
    have before := List.getElem?_eq_getElem (Nat.lt_of_succ_lt bound)
    have refers := (chain.linked _ _ _ before laterStanding).1
    refine clear (Or.inr ⟨_, List.mem_of_getElem? before, ?_⟩)
    rw [← headers, (chain.genesis entry standing).1] at refers
    exact refers.symm
  | succ place inductionHypothesis =>
    intro same
    have headers := header_eq_of_not_confusable clear (List.mem_of_getElem? standing)
      (List.mem_of_getElem? laterStanding) same
    -- Equal headers refer to one name, which the two blocks before them share.
    have bound := (List.getElem?_eq_some_iff.mp standing).1
    have laterBound := (List.getElem?_eq_some_iff.mp laterStanding).1
    rw [Nat.add_right_comm place 1 gap] at laterStanding laterBound
    have before := List.getElem?_eq_getElem (Nat.lt_of_succ_lt bound)
    have laterBefore := List.getElem?_eq_getElem (Nat.lt_of_succ_lt laterBound)
    refine inductionHypothesis before laterBefore ?_
    calc (entries[place]).block.digest H
      _ = entry.block.header.previousHeader := (chain.linked _ _ _ before standing).1.symm
      _ = later.block.header.previousHeader := by rw [headers]
      _ = _ := (chain.linked _ _ _ laterBefore laterStanding).1

theorem eq_of_digest_eq_of_not_confusable (chain : Chain H transactions covered entries)
    (clear : ¬ Confusable H entries) {place other : Nat} {entry another : BlockEntry}
    (standing : entries[place]? = some entry) (otherStanding : entries[other]? = some another)
    (same : entry.block.digest H = another.block.digest H) : place = other := by
  rcases Nat.lt_trichotomy place other with before | equal | after
  · obtain ⟨gap, rfl⟩ := Nat.exists_eq_add_of_lt before
    exact absurd same (digest_ne_of_later chain clear standing otherStanding)
  · exact equal
  · obtain ⟨gap, rfl⟩ := Nat.exists_eq_add_of_lt after
    exact absurd same.symm (digest_ne_of_later chain clear otherStanding standing)

theorem nodup_digests_of_not_confusable (chain : Chain H transactions covered entries)
    (clear : ¬ Confusable H entries) : (entries.map (·.block.digest H)).Nodup := by
  refine List.nodup_iff_getElem?_ne_getElem?.mpr fun place other before within same => ?_
  rw [List.length_map] at within
  have otherStanding := List.getElem?_eq_getElem within
  have standing := List.getElem?_eq_getElem (Nat.lt_trans before within)
  rw [List.getElem?_map, List.getElem?_map, standing, otherStanding, Option.map_some,
    Option.map_some, Option.some.injEq] at same
  exact Nat.ne_of_lt before
    (eq_of_digest_eq_of_not_confusable chain clear standing otherStanding same)

end

/-! ### From names to blocks -/

variable {L : Type} [Ledger L] {H : DigestFunction}

/-- Two blocks share a name only in a ledger whose headers can be confused. In every other one a
name, as `named` looks it up, leads to the block that bears it. -/
structure Identifies (H : DigestFunction) (ledger : L)
    (named : Digest → Except LedgerError (Option Block)) (entries : List BlockEntry) : Prop where
  lists : Lists ledger entries
  confusable : ∀ (place other : Nat) (entry another : BlockEntry), entries[place]? = some entry →
    entries[other]? = some another → place ≠ other →
    entry.block.digest H = another.block.digest H → Confusable H entries
  leads : ¬ Confusable H entries → ∀ entry ∈ entries,
    named (entry.block.digest H) = .ok (some entry.block)
  transactions : ¬ Confusable H entries → ∀ entry ∈ entries,
    Ledger.transactionsOf ledger (entry.block.digest H) = .ok entry.transactions

theorem Window.identifies (window : Window H L) {ledger : L} {indexed : IndexedLedger}
    (seen : window.Sees ledger indexed) (headed : indexed.Headed H)
    {named : Digest → Except LedgerError (Option Block)}
    (namedAre : ∀ name, named name = .ok (indexed.named name)) :
    Identifies H ledger named indexed.entries := by
  have sound := window.sound seen
  have chain := sound.chain headed
  have distinct : ¬ Confusable H indexed.entries → (indexed.blocks.map (·.digest H)).Nodup := by
    intro clear
    rw [← IndexedLedger.map_entries (Block.digest H)]
    exact nodup_digests_of_not_confusable chain clear
  refine ⟨window.lists seen, ?_, fun clear entry member => ?_, fun clear entry member => ?_⟩
  · intro place other entry another standing otherStanding different same
    exact Classical.byContradiction fun clear => different
      (eq_of_digest_eq_of_not_confusable chain clear standing otherStanding same)
  · obtain ⟨place, standing⟩ := List.mem_iff_getElem?.mp (IndexedLedger.mem_entries member).1
    rw [namedAre, IndexedLedger.named, sound.lookup_places (distinct clear) standing,
      Option.bind_some, standing]
  · obtain ⟨block, transactions⟩ := IndexedLedger.mem_entries member
    rw [window.transactionsOf_eq seen, sound.transactionsOf_digest (distinct clear) block,
      transactions]

/-- In a ledger in memory a name means one block, unless headers can be confused, and so it does in
a ledger in a table, as long as positions and lengths fit into eight bytes. -/
theorem identifies_of_empty (H : DigestFunction) (history : List Operation) :
    (∃ entries, Identifies H (runAll H IndexedLedger.empty history).2
        (fun name => .ok ((runAll H IndexedLedger.empty history).2.named name)) entries) ∧
      ((∀ operation ∈ history, operation.Fits) →
        (accepted H IndexedLedger.empty history).length < 2 ^ 64 →
        ∃ entries, Identifies H (runAll H KeyedLedger.empty history).2
          (runAll H KeyedLedger.empty history).2.named entries) := by
  have headed := IndexedLedger.headed_empty.runAll (IndexedLedger.sound_empty H) history
  refine ⟨⟨_, (IndexedLedger.window H).identifies (sees_indexed_runAll history) headed
    fun _ => rfl⟩, fun operationsFit small => ?_⟩
  have seen := sees_keyed_of_accepted operationsFit small
  exact ⟨_, (KeyedLedger.window H).identifies seen headed fun name =>
    seen.1.named_eq seen.2.1 seen.2.2 name⟩

/-- Two blocks over the same payload, made at the same time. -/
theorem identifies_of_empty_twins :
    let H : DigestFunction := fun bytes =>
      ⟨bytes.foldl (fun sum byte => 31 * sum + byte) 7 :: List.replicate 31 0, rfl⟩
    let name := Header.digest H ⟨Digest.zero, Digest.zero, H [1], 10⟩
    let receipt := Publication.logEntry name
    let twin := Block.pending ⟨name, receipt.digest H, H [1], 10⟩ 1 1
    let history : List Operation := [
      .store ⟨H [1], .zero 16, 0, [1]⟩, .propose 0 10, .finalize name receipt,
      .store ⟨H [2], .zero 16, 1, [1]⟩, .propose 0 10]
    (runAll H KeyedLedger.empty history).2.named (twin.digest H) = .ok (some twin) := by
  intro H name receipt twin history
  have operationsFit : ∀ operation ∈ history, operation.Fits := by
    simp [history, receipt, Operation.Fits, Transaction.Fits, Publication.Fits]
  obtain ⟨entries, identifies⟩ :=
    (identifies_of_empty H history).2 operationsFit (by decide +kernel)
  have seen := sees_keyed_of_accepted (H := H) operationsFit (by decide +kernel)
  have listed := identifies.lists.unique ((KeyedLedger.window H).lists seen)
  have member : ⟨2, twin, [⟨H [2], .zero 16, 1, [1]⟩]⟩ ∈ entries := by
    rw [listed]
    decide +kernel
  have clear : ¬ Confusable H entries := by
    rw [listed]
    decide +kernel
  have found := identifies.leads clear _ member
  exact found

end Ledger

end StreamLedger
