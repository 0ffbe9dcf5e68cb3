/-
This file proves that an offer stands until it is taken. Once a ledger has offered a block for
publication, it offers the same one again, whatever is stored, asked, refused or proposed with
other limits and at other times, and its chain stays as it is, as long as no block is published. A
ledger in a table may be closed and opened at any time, since it is nothing but its table.
-/
import StreamLedger.Proofs.Ledger.Growth

namespace StreamLedger

namespace Ledger

section

variable {L : Type} [Ledger L] {H : DigestFunction}

/-- The operation has published a block, judging by its answer. -/
def Operation.publishes : Operation → Answer → Bool
  | .finalize _ _, .done => true
  | _, _ => false

/-- None of the operations has published a block, judging by their answers. -/
def PublishesNone (operations : List Operation) (answers : List Answer) : Prop :=
  ∀ exchange ∈ operations.zip answers, exchange.1.publishes exchange.2 = false

/-- The later ledger offers a block, whatever the limit and the time, and has the chain of the
ledger that offered it. -/
structure KeepsOffer (H : DigestFunction) (offered : Proposal) (ledger later : L) : Prop where
  offers : ∀ maxExponent now,
    (Ledger.propose H maxExponent now later).map (·.1) = .ok (some offered)
  chain : ∃ entries, Lists ledger entries ∧ Lists later entries

theorem Operation.run_propose {ledger changed : L} {maxExponent : Nat} {now : Int64}
    {proposal : Option Proposal}
    (made : Ledger.propose H maxExponent now ledger = .ok (proposal, changed)) :
    (Operation.propose maxExponent now).run H ledger = (.proposal proposal, changed) := by
  simp only [run, made]

theorem Operation.of_run_propose {ledger : L} {maxExponent : Nat} {now : Int64}
    {proposal : Option Proposal}
    (answered : ((Operation.propose maxExponent now).run H ledger).1 = .proposal proposal) :
    Ledger.propose H maxExponent now ledger =
      .ok (proposal, ((Operation.propose maxExponent now).run H ledger).2) := by
  simp only [run] at answered ⊢
  split at answered
  · rename_i made
    cases answered
    rw [made]
  · cases answered

theorem answers_append (ledger : L) (past future : List Operation) :
    (runAll H ledger (past ++ future)).1 =
      (runAll H ledger past).1 ++ (runAll H (runAll H ledger past).2 future).1 := by
  induction past generalizing ledger with
  | nil => rfl
  | cons operation rest inductionHypothesis =>
    exact congrArg ((operation.run H ledger).1 :: ·)
      (inductionHypothesis (operation.run H ledger).2)

end

end Ledger

variable {H : DigestFunction}

/-! ### The ledger in memory -/

namespace IndexedLedger

variable {ledger : IndexedLedger} {offered : Proposal}

/-- The block that waits for its publication is what comes next. -/
theorem Offers.propose_eq (offers : ledger.Offers offered) (maxExponent : Nat) (now : Int64) :
    ledger.propose H maxExponent now = .ok (some offered, ledger) := by
  obtain ⟨block, last, pending, rfl⟩ := offers
  simp only [propose, last, pending, Bool.false_eq_true, if_false]

/-- Only a publication ends an offer, and nothing else changes the chain meanwhile. -/
theorem Offers.run (offers : ledger.Offers offered) (sound : ledger.Sound H)
    {operation : Ledger.Operation}
    (unpublished : operation.publishes (operation.run H ledger).1 = false) :
    (operation.run H ledger).2.Offers offered ∧
      (operation.run H ledger).2.entries = ledger.entries := by
  cases operation with
  | store transaction =>
    simp only [Ledger.Operation.run, Ledger.store]
    cases accepted : ledger.store transaction with
    | error error => exact ⟨offers, rfl⟩
    | ok changed =>
      obtain ⟨_, _, rfl⟩ := of_store_eq_ok accepted
      exact ⟨offers.appended sound transaction, sound.entries_appended transaction⟩
  | propose maxExponent now =>
    rw [Ledger.Operation.run_propose (offers.propose_eq maxExponent now)]
    exact ⟨offers, rfl⟩
  | finalize name publication =>
    simp only [Ledger.Operation.run, Ledger.finalize] at unpublished ⊢
    cases accepted : ledger.finalize name publication with
    | error error => exact ⟨offers, rfl⟩
    | ok changed =>
      rw [accepted] at unpublished
      cases unpublished
  | transactionsOf name =>
    simp only [Ledger.Operation.run, Ledger.transactionsOf]
    cases ledger.transactionsOf name <;> exact ⟨offers, rfl⟩
  | _ => exact ⟨offers, rfl⟩

theorem Offers.runAll (offers : ledger.Offers offered) (sound : ledger.Sound H)
    {history : List Ledger.Operation}
    (unpublished : Ledger.PublishesNone history (Ledger.runAll H ledger history).1) :
    (Ledger.runAll H ledger history).2.Offers offered ∧
      (Ledger.runAll H ledger history).2.entries = ledger.entries := by
  induction history generalizing ledger with
  | nil => exact ⟨offers, rfl⟩
  | cons operation rest inductionHypothesis =>
    obtain ⟨first, others⟩ := List.forall_mem_cons.mp unpublished
    obtain ⟨standing, same⟩ := offers.run sound first
    obtain ⟨final, sameFinal⟩ := inductionHypothesis standing (sound.run operation) others
    exact ⟨final, sameFinal.trans same⟩

end IndexedLedger

namespace Ledger

/-! ### Through a window -/

section

variable {L : Type} [Ledger L] {offered : Proposal}

/-- What is proposed is what the ledger in memory proposes. -/
theorem Window.of_propose_eq_ok (window : Window H L) {ledger offering : L}
    {indexed : IndexedLedger} (seen : window.Sees ledger indexed) {maxExponent : Nat} {now : Int64}
    {proposal : Option Proposal}
    (made : Ledger.propose H maxExponent now ledger = .ok (proposal, offering)) :
    ∃ changed, indexed.propose H maxExponent now = .ok (proposal, changed) ∧
      window.Sees offering changed := by
  have agree := window.propose_agrees seen maxExponent now
  rw [made] at agree
  generalize indexed.propose H maxExponent now = result at agree
  cases agree with
  | @done _ value same =>
    obtain ⟨_, changed⟩ := value
    obtain ⟨rfl, seenChanged⟩ := same
    exact ⟨changed, rfl, seenChanged⟩

theorem Window.keepsOffer (window : Window H L) {ledger later : L}
    {indexed changed : IndexedLedger} (seen : window.Sees ledger indexed)
    (seenLater : window.Sees later changed) (offers : changed.Offers offered)
    (same : changed.entries = indexed.entries) : KeepsOffer H offered ledger later := by
  refine ⟨fun maxExponent now => ?_, indexed.entries, window.lists seen,
    same ▸ window.lists seenLater⟩
  have agree := window.propose_agrees seenLater maxExponent now
  rw [offers.propose_eq] at agree
  obtain ⟨⟨_, _⟩, answered, rfl, _⟩ := agree.of_ok
  rw [answered]
  rfl

end

end Ledger

/-! ### Sessions -/

namespace KeyedLedger

/-- Runs one session after the other. Each opens the table that the one before has closed, and the
answers of all are collected. -/
def runSessions (H : DigestFunction) :
    Table → List (List Ledger.Operation) → List Ledger.Answer × Table
  | table, [] => ([], table)
  | table, session :: rest =>
    let (answers, closed) := Ledger.runAll H (KeyedLedger.mk table) session
    let (later, final) := runSessions H closed.table rest
    (answers ++ later, final)

theorem runSessions_eq (table : Table) (sessions : List (List Ledger.Operation)) :
    runSessions H table sessions =
      ((Ledger.runAll H (KeyedLedger.mk table) sessions.flatten).1,
        (Ledger.runAll H (KeyedLedger.mk table) sessions.flatten).2.table) := by
  induction sessions generalizing table with
  | nil => rfl
  | cons session rest inductionHypothesis =>
    simp only [runSessions, inductionHypothesis, List.flatten_cons, Ledger.answers_append,
      Ledger.runAll_append]

end KeyedLedger

namespace Ledger

theorem keepsOffer_indexed {past future : List Operation} {maxExponent : Nat} {now : Int64}
    {offered : Proposal} {ledger : IndexedLedger}
    (made : Ledger.propose H maxExponent now (runAll H IndexedLedger.empty past).2 =
      .ok (some offered, ledger))
    (unpublished : PublishesNone future (runAll H ledger future).1) :
    KeepsOffer H offered ledger (runAll H ledger future).2 := by
  have proposes := IndexedLedger.proposes_of_ok made
  have sound := ((IndexedLedger.sound_empty H).runAll past).of_proposes proposes
  obtain ⟨offers, same⟩ := proposes.offers.runAll sound unpublished
  exact (IndexedLedger.window H).keepsOffer ⟨rfl, sound⟩ ⟨rfl, sound.runAll future⟩ offers same

theorem keepsOffer_keyed {past future : List Operation} {maxExponent : Nat} {now : Int64}
    {offered : Proposal} {ledger : KeyedLedger} (pastFit : ∀ operation ∈ past, operation.Fits)
    (futureFit : ∀ operation ∈ future, operation.Fits)
    (small : (accepted H IndexedLedger.empty
      (past ++ .propose maxExponent now :: future)).length < 2 ^ 64)
    (made : Ledger.propose H maxExponent now (runAll H KeyedLedger.empty past).2 =
      .ok (some offered, ledger))
    (unpublished : PublishesNone future (runAll H ledger future).1) :
    KeepsOffer H offered ledger (runAll H ledger future).2 := by
  rw [← transactions_of_empty, runAll_append] at small
  have sound := (IndexedLedger.sound_empty H).runAll past
  have smallPast := Nat.lt_of_le_of_lt (sound.length_le_runAll _) small
  obtain ⟨seenPast, _⟩ := sees_keyed_runAll pastFit smallPast
  obtain ⟨changed, answered, seen⟩ := (KeyedLedger.window H).of_propose_eq_ok seenPast made
  have later : (runAll H (runAll H IndexedLedger.empty past).2
      (.propose maxExponent now :: future)).2 = (runAll H changed future).2 := by
    rw [runAll, Operation.run_propose answered]
  rw [later] at small
  obtain ⟨answers, seenLater⟩ := KeyedLedger.sees_runAll seen futureFit small
  rw [answers] at unpublished
  obtain ⟨offers, same⟩ :=
    (IndexedLedger.proposes_of_ok answered).offers.runAll seen.2.1 unpublished
  exact (KeyedLedger.window H).keepsOffer seen seenLater offers same

/-- A ledger in memory that has offered a block keeps the offer until a block is published, and so
does a ledger in a table through any number of sessions, as long as positions and lengths fit into
eight bytes. -/
theorem keepsOffer_of_offered (H : DigestFunction) (maxExponent : Nat) (now : Int64)
    (offered : Proposal) :
    (∀ (past future : List Operation) (ledger : IndexedLedger),
      Ledger.propose H maxExponent now (runAll H IndexedLedger.empty past).2 =
        .ok (some offered, ledger) →
      PublishesNone future (runAll H ledger future).1 →
      KeepsOffer H offered ledger (runAll H ledger future).2) ∧
    ∀ (past future : List (List Operation)) (ledger : KeyedLedger),
      (∀ operation ∈ past.flatten ++ future.flatten, operation.Fits) →
      (accepted H IndexedLedger.empty
        (past.flatten ++ .propose maxExponent now :: future.flatten)).length < 2 ^ 64 →
      Ledger.propose H maxExponent now
        (KeyedLedger.mk (KeyedLedger.runSessions H Table.empty past).2) =
          .ok (some offered, ledger) →
      PublishesNone future.flatten (KeyedLedger.runSessions H ledger.table future).1 →
      KeepsOffer H offered ledger
        (KeyedLedger.mk (KeyedLedger.runSessions H ledger.table future).2) := by
  refine ⟨fun past future ledger made unpublished => keepsOffer_indexed made unpublished,
    fun past future ledger operationsFit small made unpublished => ?_⟩
  rw [KeyedLedger.runSessions_eq] at made unpublished ⊢
  obtain ⟨pastFit, futureFit⟩ := List.forall_mem_append.mp operationsFit
  exact keepsOffer_keyed pastFit futureFit small made unpublished

/-- Another transaction, an order for two, a publication of no block and a question, with the table
closed in between. -/
theorem keepsOffer_of_offered_twice :
    let H : DigestFunction := fun bytes => ⟨UInt8.ofNat bytes.length :: List.replicate 31 0, rfl⟩
    let past : List (List Operation) := [[.store ⟨H [1], .zero 16, 0, [1]⟩], []]
    let future : List (List Operation) := [
      [.store ⟨H [2, 2], .zero 16, 1, [2, 2]⟩, .propose 3 20],
      [.finalize Digest.zero (.logEntry Digest.zero), .size]]
    let start := KeyedLedger.mk (KeyedLedger.runSessions H Table.empty past).2
    let offered : Proposal := ⟨⟨Digest.zero, Digest.zero, H [1], 10⟩, [H [1]]⟩
    ∃ ledger, Ledger.propose H 0 10 start = .ok (some offered, ledger) ∧
      KeepsOffer H offered ledger
        (KeyedLedger.mk (KeyedLedger.runSessions H ledger.table future).2) := by
  intro H past future start offered
  have answered : ((Operation.propose 0 10).run H start).1 = .proposal (some offered) := by
    decide +kernel
  have made := Operation.of_run_propose answered
  have operationsFit : ∀ operation ∈ past.flatten ++ future.flatten, operation.Fits := by
    simp [past, future, Operation.Fits, Transaction.Fits, Publication.Fits]
  refine ⟨_, made, (keepsOffer_of_offered H 0 10 offered).2 past future _ operationsFit
    (by decide +kernel) made ?_⟩
  unfold PublishesNone
  decide +kernel

end Ledger

end StreamLedger
