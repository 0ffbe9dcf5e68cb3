/-
This file says what may become of a registry. One event comes after the other, but a round may also
be cut in two: while it waits for the log, everything but another round may happen. A trace keeps
what the registry itself does not, namely the round that waits, the transactions that were stored
and the messages to those that were refused. What a registry reports is coherent if it is what the
ledger says of everything that was stored, and if of anything else it reports no more than that it
waits or why it was last refused. The clock may have a last time, and an event may then break off
that has to cache a status which would live beyond it. What a registry reports after that is left
open, and an event that ends early enough does not break off.
-/
import StreamLedger.Proofs.Registry.Horizon
import StreamLedger.Proofs.Wire

namespace StreamLedger

namespace Registry

open Cache (Overrun)

/-- A registry and what it has been through. -/
structure Trace (L : Type) where
  registry : Registry L
  /-- The round that waits for the log. -/
  waiting : Option Round
  /-- What was stored, the latest first. -/
  stored : List Transaction
  /-- What was refused, and why, the latest first. -/
  rejections : List (Digest × String)

/-- The byte strings that the log's answer brings along have lengths that fit into eight bytes. -/
def AnswerFits (answer : Log.Answer) : Prop :=
  ∀ publication, answer.verdict = .published publication → publication.Fits

namespace Trace

section

variable {L : Type}

def HasStored (trace : Trace L) (name : Digest) : Prop :=
  ∃ transaction ∈ trace.stored, transaction.digest = name

/-- Positions and payload lengths can be written in eight bytes. -/
def Fits (trace : Trace L) : Prop :=
  trace.stored.length < 2 ^ 64 ∧ ∀ transaction ∈ trace.stored, transaction.Fits

theorem Fits.of_suffix {before after : Trace L} (fits : after.Fits)
    (kept : before.stored <:+ after.stored) : before.Fits :=
  ⟨Nat.lt_of_le_of_lt kept.length_le fits.1,
    fun transaction member => fits.2 transaction (kept.subset member)⟩

/-- Only what has not been stored is marked as pending, no status is set from elsewhere, and no
round begins while another waits. -/
def Allows (trace : Trace L) : Event → Prop
  | .markPending name => ¬ trace.HasStored name
  | .setStatus _ _ => False
  | .round => trace.waiting = none
  | _ => True

end

section

variable {L : Type} [Ledger L] (H : DigestFunction) (trace : Trace L)

/-- The trace after a transaction was submitted. -/
def took (transaction : Transaction) (result : Except LedgerError Unit) (registry : Registry L) :
    Trace L :=
  match result with
  | .ok _ => { trace with registry, stored := transaction :: trace.stored }
  | .error error =>
    { trace with registry, rejections := (transaction.digest, error.message) :: trace.rejections }

def step : Event → Trace L
  | .submit transaction =>
    let (result, registry) := trace.registry.submit transaction
    trace.took transaction result registry
  | event => { trace with registry := event.run H trace.registry }

/-- A step by a clock with a last time, if it returns. -/
def stepWithin (horizon : Int) : Event → Except (Overrun horizon) (Trace L)
  | .submit transaction =>
    let (ended, registry) := trace.registry.submitWithin horizon transaction
    ended.map fun result => trace.took transaction result registry
  | event =>
    let (ended, registry) := event.runWithin horizon H trace.registry
    ended.map fun _ => { trace with registry }

/-- Begins a round, which may then wait for the log. -/
def begun : Trace L :=
  match trace.registry.beginRound H with
  | (.ok waiting, registry) => { trace with registry, waiting }
  | (.error _, registry) => { trace with registry }

/-- Ends a round. -/
def finished (round : Round) : Trace L :=
  { trace with registry := (trace.registry.finishRound H round).2, waiting := none }

/-- The end of a round by a clock with a last time, if it returns. -/
def finishedWithin (horizon : Int) (round : Round) : Except (Overrun horizon) (Trace L) :=
  let (ended, registry) := trace.registry.finishRoundWithin horizon H round
  ended.map fun _ => { trace with registry, waiting := none }

/-- What may become of a registry while everything returns. -/
inductive Reachable (horizon : Int) (registry : Registry L) : Trace L → Prop
  | start : Reachable horizon registry ⟨registry, none, [], []⟩
  | step {trace after : Trace L} (reachable : Reachable horizon registry trace) (event : Event)
      (allowed : trace.Allows event) (returned : trace.stepWithin H horizon event = .ok after) :
      Reachable horizon registry after
  | begun {trace : Trace L} (reachable : Reachable horizon registry trace)
      (free : trace.waiting = none) : Reachable horizon registry (trace.begun H)
  | finished {trace after : Trace L} (reachable : Reachable horizon registry trace) {round : Round}
      (waits : trace.waiting = some round)
      (returned : trace.finishedWithin H horizon round = .ok after) :
      Reachable horizon registry after

/-- A query answers with a record. Only if nothing is cached, and the answer would be cached beyond
the horizon, does it break off. -/
def Reports (horizon : Int) (name : Digest) (record : StatusRecord) : Prop :=
  (trace.registry.statusWithin horizon name).1 =
    if breaks : trace.registry.peek name = none ∧
        horizon < trace.registry.now + trace.registry.cache.ttl then .error ⟨_, breaks.2⟩
    else .ok record

/-- Whatever may happen next returns if it ends early enough for all that it may cache. -/
structure Returns (horizon : Int) : Prop where
  step : ∀ event, trace.Allows event →
    (trace.step H event).registry.now + trace.registry.cache.ttl ≤ horizon →
    trace.stepWithin H horizon event = .ok (trace.step H event)
  finished : ∀ round, trace.waiting = some round →
    (trace.finished H round).registry.now + trace.registry.cache.ttl ≤ horizon →
    trace.finishedWithin H horizon round = .ok (trace.finished H round)

end

theorem stored_took {L : Type} (trace : Trace L) (transaction : Transaction)
    (result : Except LedgerError Unit) (registry : Registry L) :
    trace.stored <:+ (trace.took transaction result registry).stored := by
  cases result with
  | ok _ => exact List.suffix_cons transaction trace.stored
  | error error => exact List.suffix_refl trace.stored

theorem exists_of_map_eq_ok {ε α β : Type} {f : α → β} {ended : Except ε α} {value : β}
    (returned : ended.map f = .ok value) : ∃ result, f result = value := by
  cases ended with
  | error error => cases returned
  | ok result => exact ⟨result, Except.ok.inj returned⟩

section

variable {L : Type} [Ledger L] {H : DigestFunction} {trace : Trace L}

/-- What was stored stays stored. -/
theorem stored_step (event : Event) : trace.stored <:+ (trace.step H event).stored := by
  cases event with
  | submit transaction => exact stored_took trace transaction _ _
  | _ => exact List.suffix_refl trace.stored

theorem registry_step (event : Event) :
    (trace.step H event).registry = event.run H trace.registry := by
  cases event with
  | submit transaction =>
    show (trace.took transaction (trace.registry.submit transaction).1 _).registry = _
    cases (trace.registry.submit transaction).1 <;> rfl
  | _ => rfl

theorem stored_stepWithin {horizon : Int} {event : Event} {after : Trace L}
    (returned : trace.stepWithin H horizon event = .ok after) : trace.stored <:+ after.stored := by
  cases event with
  | submit transaction =>
    obtain ⟨result, rfl⟩ := exists_of_map_eq_ok returned
    exact stored_took trace transaction result _
  | propose maxExponent | advance milliseconds =>
    cases returned
    exact List.suffix_refl trace.stored
  | _ =>
    obtain ⟨_, rfl⟩ := exists_of_map_eq_ok returned
    exact List.suffix_refl trace.stored

theorem stored_finishedWithin {horizon : Int} {round : Round} {after : Trace L}
    (returned : trace.finishedWithin H horizon round = .ok after) : after.stored = trace.stored := by
  obtain ⟨_, rfl⟩ := exists_of_map_eq_ok returned
  rfl

/-- In a tidy registry a step that returns is a step by a clock without end. -/
theorem stepWithin_timely (tidy : Tidy trace.registry) (horizon : Int) (event : Event) :
    Timely ((trace.step H event).registry.now + trace.registry.cache.ttl) (trace.step H event)
      (trace.stepWithin H horizon event) := by
  rw [registry_step]
  have timely := fun event => (Event.runWithin_beside horizon H tidy.idle event).timely tidy.quiet
    fun _ registry => { trace with registry }
  cases event with
  | submit transaction =>
    exact (submitWithin_beside horizon trace.registry transaction).timely tidy.quiet
      fun result registry => trace.took transaction result registry
  | markPending name => exact timely (.markPending name)
  | setStatus name record => exact timely (.setStatus name record)
  | query name => exact timely (.query name)
  | propose maxExponent => exact timely (.propose maxExponent)
  | round => exact timely .round
  | advance milliseconds => exact timely (.advance milliseconds)

theorem finishedWithin_timely (tidy : Tidy trace.registry) (horizon : Int) (round : Round) :
    Timely ((trace.finished H round).registry.now + trace.registry.cache.ttl)
      (trace.finished H round) (trace.finishedWithin H horizon round) := by
  have timely := (finishRoundWithin_beside horizon H trace.registry round).timely tidy.quiet
    fun _ registry => { trace with registry, waiting := none }
  exact timely

theorem fits_begun : (trace.begun H).Fits ↔ trace.Fits := by
  have stored : (trace.begun H).stored = trace.stored := by
    unfold begun
    split <;> rfl
  rw [Fits, Fits, stored]

/-- A round that nothing comes between begins, lets time pass until the log answers, and ends. -/
theorem step_round (idle : trace.registry.service = none) (free : trace.waiting = none) :
    trace.step H .round =
      match (trace.begun H).waiting with
      | none => trace.begun H
      | some round =>
        finished H { trace.begun H with
          registry := { (trace.begun H).registry with now := round.answered } } round := by
  simp only [step, Event.run, begun, round_of_idle idle]
  cases trace.registry.beginRound H with
  | mk result registry =>
    rcases result with error | _ | round
    · simp only [free]
    · simp only [free]
    · simp only [finished, free]

end

end Trace

end Registry

end StreamLedger
