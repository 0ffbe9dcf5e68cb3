/-
This file gives one way to speak of both kinds of ledgers. A view says when a ledger is seen as a
ledger in memory, whose lists can be talked about: the statuses are the same, and an operation on
both leads to ledgers that are seen as each other again. A ledger in memory is seen as itself, and
a ledger in a table as the one it represents.
-/
import StreamLedger.Proofs.Ledger.Agreement
import StreamLedger.Proofs.Ledger.Status

namespace StreamLedger

/-- How ledgers of a kind are seen as ledgers in memory. -/
structure Ledger.View (H : DigestFunction) (L : Type) [Ledger L] where
  Sees : L → IndexedLedger → Prop
  sound : ∀ {ledger indexed}, Sees ledger indexed → indexed.Sound H
  status_eq : ∀ {ledger indexed}, Sees ledger indexed → ∀ name,
    Ledger.status ledger name = .ok (indexed.status name)
  store_agrees : ∀ {ledger indexed}, Sees ledger indexed → ∀ transaction : Transaction,
    Agree (fun a b => transaction.Fits → b.transactions.length < 2 ^ 64 → Sees a b)
      (Ledger.store ledger transaction) (indexed.store transaction)
  propose_agrees : ∀ {ledger indexed}, Sees ledger indexed → ∀ maxExponent now,
    Agree (fun a b => a.1 = b.1 ∧ Sees a.2 b.2) (Ledger.propose H maxExponent now ledger)
      (indexed.propose H maxExponent now)
  finalize_agrees : ∀ {ledger indexed}, Sees ledger indexed → ∀ name (publication : Publication),
    publication.Fits →
    Agree Sees (Ledger.finalize ledger name publication) (indexed.finalize name publication)

section

variable {H : DigestFunction}

/-- What belongs together may be said in other words. -/
theorem Agree.imp {α β : Type} {related other : α → β → Prop} {a : Except LedgerError α}
    {b : Except LedgerError β} (agree : Agree related a b)
    (implies : ∀ x y, b = .ok y → related x y → other x y) : Agree other a b := by
  cases agree with
  | refused error => exact .refused error
  | done same => exact .done (implies _ _ rfl same)

/-- What is the same belongs together, if it is as asked for. -/
theorem Agree.of_eq {α : Type} {related : α → α → Prop} (result : Except LedgerError α)
    (holds : ∀ value, result = .ok value → related value value) : Agree related result result := by
  cases result with
  | error error => exact .refused error
  | ok value => exact .done (holds value rfl)

theorem Agree.of_error {α β : Type} {related : α → β → Prop} {a : Except LedgerError α}
    {error : LedgerError} (agree : Agree related a (.error error)) : a = .error error := by
  cases agree
  rfl

theorem Agree.of_ok {α β : Type} {related : α → β → Prop} {a : Except LedgerError α} {b : β}
    (agree : Agree related a (.ok b)) : ∃ value, a = .ok value ∧ related value b := by
  cases agree with
  | done same => exact ⟨_, rfl, same⟩

/-! ### What becomes of an accepted operation -/

namespace IndexedLedger

variable {indexed changed : IndexedLedger}

theorem Sound.of_store (sound : indexed.Sound H) {transaction : Transaction}
    (accepted : indexed.store transaction = .ok changed) : changed.Sound H := by
  obtain ⟨_, fresh, rfl⟩ := of_store_eq_ok accepted
  exact sound.appended fresh

theorem Sound.of_proposes (sound : indexed.Sound H) {maxExponent : Nat} {now : Int64}
    {proposal : Option Proposal} (answered : Proposes H maxExponent now indexed proposal changed) :
    changed.Sound H := by
  cases answered with
  | again last pending => exact sound
  | nothing settled idle => exact sound
  | next settled waiting made => exact sound.extended settled waiting

/-- The last block is pending, and this is the proposal of it. -/
def Offers (indexed : IndexedLedger) (proposal : Proposal) : Prop :=
  ∃ block, indexed.blocks.getLast? = some block ∧ block.isFinalized = false ∧
    proposal = block.proposal (indexed.inBlock block)

theorem Proposes.offers {maxExponent : Nat} {now : Int64} {proposal : Proposal}
    (answered : Proposes H maxExponent now indexed (some proposal) changed) :
    changed.Offers proposal := by
  cases answered with
  | again last pending => exact ⟨_, last, pending, rfl⟩
  | next settled waiting made => exact ⟨_, List.getLast?_concat, rfl, rfl⟩

/-- While a block is offered, no other is made. -/
theorem Offers.eq_of_proposes {maxExponent : Nat} {now : Int64} {offered : Proposal}
    {proposal : Option Proposal} (offers : indexed.Offers offered)
    (answered : Proposes H maxExponent now indexed proposal changed) : changed = indexed := by
  obtain ⟨block, last, pending, _⟩ := offers
  cases answered with
  | again last pending => rfl
  | nothing settled idle => rfl
  | next settled waiting made =>
    rw [settled block last] at pending
    cases pending

theorem Offers.appended {offered : Proposal} (offers : indexed.Offers offered)
    (sound : indexed.Sound H) (transaction : Transaction) :
    (indexed.appended transaction).Offers offered := by
  obtain ⟨block, last, pending, same⟩ := offers
  refine ⟨block, last, pending, ?_⟩
  rw [sound.inBlock_appended transaction (List.mem_of_getLast? last)]
  exact same

theorem Proposes.transactions_eq {maxExponent : Nat} {now : Int64} {proposal : Option Proposal}
    (answered : Proposes H maxExponent now indexed proposal changed) :
    changed.transactions = indexed.transactions := by
  cases answered <;> rfl

/-- Making a block moves no status. -/
theorem Proposes.status_eq {maxExponent : Nat} {now : Int64} {proposal : Option Proposal}
    (answered : Proposes H maxExponent now indexed proposal changed) (sound : indexed.Sound H)
    (small : indexed.transactions.length < 2 ^ 64) (name : Digest) :
    changed.status name = indexed.status name := by
  cases answered with
  | again last pending => rfl
  | nothing settled idle => rfl
  | next settled waiting made =>
    exact sound.status_extended (sound.extended settled waiting) rfl small name

theorem Fits.of_proposes (fits : indexed.Fits) {maxExponent : Nat} {now : Int64}
    {proposal : Option Proposal} (answered : Proposes H maxExponent now indexed proposal changed) :
    changed.Fits := by
  cases answered with
  | again last pending => exact fits
  | nothing settled idle => exact fits
  | next settled waiting made => exact fits.extended (nextBlock_fits _ _)

theorem Sound.of_finalize (sound : indexed.Sound H) {name : Digest} {publication : Publication}
    (accepted : indexed.finalize name publication = .ok changed) : changed.Sound H := by
  obtain ⟨earlier, block, whole, _, _, rfl⟩ := sound.of_finalize_eq_ok accepted
  exact sound.finalized whole publication

/-- A ledger in memory is seen as itself. -/
def view (H : DigestFunction) : Ledger.View H IndexedLedger where
  Sees ledger indexed := ledger = indexed ∧ indexed.Sound H
  sound seen := seen.2
  status_eq seen name := by rw [seen.1]; rfl
  store_agrees := by
    rintro ledger _ ⟨rfl, sound⟩ transaction
    exact Agree.of_eq _ fun changed accepted _ _ => ⟨rfl, sound.of_store accepted⟩
  propose_agrees := by
    rintro ledger _ ⟨rfl, sound⟩ maxExponent now
    exact Agree.of_eq _ fun result answered =>
      ⟨rfl, rfl, sound.of_proposes (proposes_of_ok answered)⟩
  finalize_agrees := by
    rintro ledger _ ⟨rfl, sound⟩ name publication _
    exact Agree.of_eq _ fun changed accepted => ⟨rfl, sound.of_finalize accepted⟩

end IndexedLedger

/-- A ledger in a table is seen as the one it represents. -/
def KeyedLedger.view (H : DigestFunction) : Ledger.View H KeyedLedger where
  Sees ledger indexed := ledger.Represents indexed ∧ indexed.Sound H ∧ indexed.Fits
  sound seen := seen.2.1
  status_eq seen name := seen.1.status_eq seen.2.1 seen.2.2 name
  store_agrees := by
    rintro ledger indexed ⟨represents, sound, fits⟩ transaction
    refine (represents.store_agrees sound fits transaction).imp
      fun keyed changed accepted after => ?_
    obtain ⟨_, fresh, rfl⟩ := IndexedLedger.of_store_eq_ok accepted
    exact fun transactionFits small =>
      ⟨after, sound.appended fresh, fits.appended transactionFits small⟩
  propose_agrees := by
    rintro ledger indexed ⟨represents, sound, fits⟩ maxExponent now
    refine (represents.propose_agrees sound fits maxExponent now).imp
      fun keyed changed answered => ?_
    have answered := IndexedLedger.proposes_of_ok answered
    exact fun after => ⟨after.1, after.2, sound.of_proposes answered, fits.of_proposes answered⟩
  finalize_agrees := by
    rintro ledger indexed ⟨represents, sound, fits⟩ name publication publicationFits
    refine (represents.finalize_agrees sound fits name publication).imp
      fun keyed changed accepted after => ?_
    obtain ⟨earlier, block, whole, _, _, rfl⟩ := sound.of_finalize_eq_ok accepted
    exact ⟨after, sound.finalized whole publication, fits.finalized whole publicationFits⟩

end

end StreamLedger
