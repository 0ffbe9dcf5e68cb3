/-
This file proves that the pages of a ledger are pieces of one chain. A page holds the entries after
the first `skip`, at most `take` of them, and each says at which place of the whole chain it stands;
so pages that are read one after the other make up the chain, however long each of them is. Entries
carry the transactions of their block's range in the order of arrival, or none. A ledger in a table
has the pages of the ledger in memory that it is seen as.
-/
import Mathlib.Algebra.GroupWithZero.Nat
import StreamLedger.Proofs.Ledger.Window

namespace StreamLedger

/-- A line of a listing, with or without its transactions. -/
def BlockEntry.shown (withTransactions : Bool) (entry : BlockEntry) : BlockEntry :=
  if withTransactions then entry else { entry with transactions := [] }

theorem BlockEntry.shown_true : BlockEntry.shown true = id := rfl

/-! ### Pages of the ledger in memory -/

theorem IndexedLedger.page_eq_entries (ledger : IndexedLedger) (skip take : Nat)
    (withTransactions : Bool) :
    ledger.page skip take withTransactions =
      ((ledger.entries.drop skip).take take).map (BlockEntry.shown withTransactions) := by
  rw [entries, ← List.map_drop, ← List.map_take, List.map_map, page]
  cases withTransactions <;> rfl

namespace Ledger

section

variable {L : Type} [Ledger L]

/-! ### Pages one after the other -/

/-- Reads consecutive pages of the given sizes, the first of them after `skip` blocks. -/
def readPages (ledger : L) (withTransactions : Bool) :
    (skip : Nat) → (sizes : List Nat) → Except LedgerError (List BlockEntry)
  | _, [] => return []
  | skip, take :: sizes => do
    let page ← Ledger.page ledger skip take withTransactions
    return page ++ (← readPages ledger withTransactions (skip + take) sizes)

/-- The pages of a ledger are pieces of the chain `entries`, whose first blocks have `covered` of
the `transactions`. -/
structure Paged (H : DigestFunction) (ledger : L) (transactions : List Transaction) (covered : Nat)
    (entries : List BlockEntry) : Prop where
  chain : Chain H transactions covered entries
  /-- A place fits where the number of transactions does. -/
  length_le : entries.length ≤ transactions.length
  heights : ∀ place entry, entries[place]? = some entry → entry.height = place + 1
  page_eq : ∀ skip take withTransactions,
    Ledger.page ledger skip take withTransactions =
      .ok (((entries.drop skip).take take).map (BlockEntry.shown withTransactions))
  readPages_eq : ∀ withTransactions skip sizes,
    readPages ledger withTransactions skip sizes =
      .ok (((entries.drop skip).take sizes.sum).map (BlockEntry.shown withTransactions))
  /-- Enough pages make up the whole chain. -/
  readPages_all : ∀ sizes, entries.length ≤ sizes.sum → readPages ledger true 0 sizes = .ok entries

theorem readPages_eq_of_page_eq {ledger : L} {entries : List BlockEntry} {withTransactions : Bool}
    (page_eq : ∀ skip take, Ledger.page ledger skip take withTransactions =
      .ok (((entries.drop skip).take take).map (BlockEntry.shown withTransactions)))
    (skip : Nat) (sizes : List Nat) :
    readPages ledger withTransactions skip sizes =
      .ok (((entries.drop skip).take sizes.sum).map (BlockEntry.shown withTransactions)) := by
  induction sizes generalizing skip with
  | nil => rfl
  | cons take sizes inductionHypothesis =>
    simp only [readPages, page_eq, inductionHypothesis, bind, Except.bind, pure, Except.pure]
    rw [← List.map_append, List.sum_cons, List.take_add, List.drop_drop]

end

section

variable {H : DigestFunction}

theorem Window.paged {L : Type} [Ledger L] (window : Window H L) {ledger : L}
    {indexed : IndexedLedger} (seen : window.Sees ledger indexed) (headed : indexed.Headed H) :
    Paged H ledger indexed.transactions indexed.covered indexed.entries := by
  have chain := (window.sound seen).chain headed
  have length_le : indexed.entries.length ≤ indexed.transactions.length := by
    have blocks := chain.tiles.length_le
    rw [List.length_map, Nat.zero_add] at blocks
    exact Nat.le_trans blocks chain.within
  have page_eq : ∀ skip take withTransactions,
      Ledger.page ledger skip take withTransactions =
        .ok (((indexed.entries.drop skip).take take).map (BlockEntry.shown withTransactions)) :=
    fun skip take withTransactions => by rw [window.page_eq seen, indexed.page_eq_entries]
  have readPages_eq : ∀ withTransactions skip sizes, readPages ledger withTransactions skip sizes =
      .ok (((indexed.entries.drop skip).take sizes.sum).map
        (BlockEntry.shown withTransactions)) :=
    fun _ => readPages_eq_of_page_eq fun skip take => page_eq skip take _
  refine ⟨chain, length_le, ?_, page_eq, readPages_eq, ?_⟩
  · intro place entry standing
    rw [IndexedLedger.getElem?_entries] at standing
    obtain ⟨block, _, rfl⟩ := Option.map_eq_some_iff.mp standing
    rfl
  · intro sizes enough
    rw [readPages_eq, List.drop_zero, List.take_of_length_le enough, BlockEntry.shown_true,
      List.map_id]

/-- After any history that started empty, the pages of a ledger in memory are pieces of the chain
of its blocks, and those of a ledger in a table are pieces of the same chain, as long as positions
and lengths fit into eight bytes. -/
theorem paged_of_empty (H : DigestFunction) (history : List Operation) :
    let memory := (runAll H IndexedLedger.empty history).2
    Paged H memory (accepted H IndexedLedger.empty history) memory.covered memory.entries ∧
      ((∀ operation ∈ history, operation.Fits) →
        (accepted H IndexedLedger.empty history).length < 2 ^ 64 →
        Paged H (runAll H KeyedLedger.empty history).2 (accepted H KeyedLedger.empty history)
          memory.covered memory.entries) := by
  intro memory
  have headed : memory.Headed H :=
    IndexedLedger.headed_empty.runAll (IndexedLedger.sound_empty H) history
  rw [← transactions_of_empty]
  refine ⟨(IndexedLedger.window H).paged (sees_indexed_runAll history) headed, ?_⟩
  intro operationsFit small
  obtain ⟨seen, same⟩ := sees_keyed_runAll operationsFit small
  rw [same, ← transactions_of_empty]
  exact (KeyedLedger.window H).paged seen headed

/-- Two blocks, of which the second is pending. -/
theorem paged_of_empty_pending :
    let H : DigestFunction := fun bytes => ⟨UInt8.ofNat bytes.length :: List.replicate 31 0, rfl⟩
    let name := Header.digest H ⟨Digest.zero, Digest.zero, H [1], 0⟩
    let history : List Operation := [
      .store ⟨H [1], .zero 16, 0, [1]⟩, .propose 0 0, .finalize name (.logEntry name),
      .store ⟨H [2, 2], .zero 16, 1, [2, 2]⟩, .propose 3 20]
    let memory := (runAll H IndexedLedger.empty history).2
    memory.entries.length = 2 ∧
      Paged H (runAll H KeyedLedger.empty history).2 (accepted H KeyedLedger.empty history)
        memory.covered memory.entries := by
  intro H name history memory
  refine ⟨by decide +kernel, (paged_of_empty H history).2 ?_ (by decide +kernel)⟩
  simp [history, Operation.Fits, Transaction.Fits, Publication.Fits]

end

end Ledger

end StreamLedger
