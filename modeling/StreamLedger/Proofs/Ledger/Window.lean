/-
This file extends views to everything that a ledger can be asked. Through a window, a ledger lists
the same chain, the same streams and the same number of transactions as the ledger in memory that
it is seen as. Both kinds of ledgers have one, and every history that starts empty can be watched
through it.
-/
import StreamLedger.Proofs.Ledger.Chain
import StreamLedger.Proofs.Ledger.View

namespace StreamLedger

/-- A view of ledgers that shows the answer to every question. -/
structure Ledger.Window (H : DigestFunction) (L : Type) [Ledger L] extends Ledger.View H L where
  stream_eq : ∀ {ledger indexed}, Sees ledger indexed → ∀ id,
    Ledger.stream ledger id = .ok (indexed.stream id)
  blockOf_eq : ∀ {ledger indexed}, Sees ledger indexed → ∀ name,
    Ledger.blockOf ledger name = .ok (indexed.blockOf name)
  page_eq : ∀ {ledger indexed}, Sees ledger indexed → ∀ skip take withTransactions,
    Ledger.page ledger skip take withTransactions = .ok (indexed.page skip take withTransactions)
  transactionsOf_eq : ∀ {ledger indexed}, Sees ledger indexed → ∀ name,
    Ledger.transactionsOf ledger name = indexed.transactionsOf name
  size_eq : ∀ {ledger indexed}, Sees ledger indexed →
    Ledger.size ledger = .ok (UInt64.ofNat indexed.transactions.length)

section

variable {H : DigestFunction}

def IndexedLedger.window (H : DigestFunction) : Ledger.Window H IndexedLedger where
  toView := IndexedLedger.view H
  stream_eq seen id := by rw [seen.1]; rfl
  blockOf_eq seen name := by rw [seen.1]; rfl
  page_eq seen skip take withTransactions := by rw [seen.1]; rfl
  transactionsOf_eq seen name := by rw [seen.1]; rfl
  size_eq seen := by rw [seen.1]; rfl

def KeyedLedger.window (H : DigestFunction) : Ledger.Window H KeyedLedger where
  toView := KeyedLedger.view H
  stream_eq seen id := seen.1.stream_eq seen.2.1 seen.2.2 id
  blockOf_eq seen name := seen.1.blockOf_eq seen.2.1 seen.2.2 name
  page_eq seen skip take withTransactions :=
    seen.1.page_eq seen.2.1 seen.2.2 skip take withTransactions
  transactionsOf_eq seen name := seen.1.transactionsOf_eq seen.2.1 seen.2.2 name
  size_eq seen := seen.1.size_eq

/-- Both kinds of ledgers answer a history alike, from any time on. -/
theorem KeyedLedger.sees_runAll {keyed : KeyedLedger} {indexed : IndexedLedger}
    (seen : (window H).Sees keyed indexed) {history : List Ledger.Operation}
    (operationsFit : ∀ operation ∈ history, operation.Fits)
    (small : (Ledger.runAll H indexed history).2.transactions.length < 2 ^ 64) :
    (Ledger.runAll H keyed history).1 = (Ledger.runAll H indexed history).1 ∧
      (window H).Sees (Ledger.runAll H keyed history).2 (Ledger.runAll H indexed history).2 := by
  obtain ⟨represents, sound, fits⟩ := seen
  obtain ⟨answers, representsFinal⟩ := represents.runAll sound fits operationsFit small
  exact ⟨answers, representsFinal, sound.runAll history, fits.runAll sound operationsFit small⟩

namespace Ledger

/-- Through a window the chain is listed as it is. -/
theorem Window.lists {L : Type} [Ledger L] (window : Window H L) {ledger : L}
    {indexed : IndexedLedger} (seen : window.Sees ledger indexed) :
    Lists ledger indexed.entries := fun take enough =>
  (window.page_eq seen 0 take true).trans (lists_indexed indexed take enough)

/-- A ledger lists one chain only. -/
theorem Lists.unique {L : Type} [Ledger L] {ledger : L} {entries others : List BlockEntry}
    (lists : Lists ledger entries) (listsOthers : Lists ledger others) : entries = others := by
  have listed := lists (max entries.length others.length) (Nat.le_max_left _ _)
  rw [listsOthers _ (Nat.le_max_right _ _)] at listed
  exact (Except.ok.inj listed).symm

/-! ### Histories -/

theorem sees_indexed_runAll (history : List Operation) :
    (IndexedLedger.window H).Sees (runAll H IndexedLedger.empty history).2
      (runAll H IndexedLedger.empty history).2 :=
  ⟨rfl, (IndexedLedger.sound_empty H).runAll history⟩

theorem sees_keyed_runAll {history : List Operation}
    (operationsFit : ∀ operation ∈ history, operation.Fits)
    (small : (runAll H IndexedLedger.empty history).2.transactions.length < 2 ^ 64) :
    (KeyedLedger.window H).Sees (runAll H KeyedLedger.empty history).2
        (runAll H IndexedLedger.empty history).2 ∧
      accepted H KeyedLedger.empty history = accepted H IndexedLedger.empty history := by
  obtain ⟨answers, represents, fits⟩ :=
    KeyedLedger.represents_runAll (List.prefix_refl _) operationsFit small
  refine ⟨⟨represents, (IndexedLedger.sound_empty H).runAll history, fits⟩, ?_⟩
  rw [accepted, answers, accepted]

/-- All transactions of a ledger that started empty were stored by its history. -/
theorem transactions_of_empty (history : List Operation) :
    (runAll H IndexedLedger.empty history).2.transactions =
      accepted H IndexedLedger.empty history :=
  transactions_runAll (IndexedLedger.sound_empty H) history

theorem sees_keyed_of_accepted {history : List Operation}
    (operationsFit : ∀ operation ∈ history, operation.Fits)
    (small : (accepted H IndexedLedger.empty history).length < 2 ^ 64) :
    (KeyedLedger.window H).Sees (runAll H KeyedLedger.empty history).2
      (runAll H IndexedLedger.empty history).2 := by
  rw [← transactions_of_empty] at small
  exact (sees_keyed_runAll operationsFit small).1

end Ledger

end

end StreamLedger
