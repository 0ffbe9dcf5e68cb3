/-
This file proves that a registry does not depend on its cache. Two registries are alike if they
differ in their caches only, whatever these hold, however much they hold and for how long, and
whichever calls to them will fail, or else in what they have counted. Every operation has the same
result on registries that are alike, unless it asks for a status, and leaves them alike. So two runs
take in the same transactions, hand the same headers to the log and lead the ledger through the same
states, although the caches are disturbed at any time.
-/
import StreamLedger.Proofs.Registry.Events

namespace StreamLedger

namespace Registry

/-! ### What can be seen besides the cache -/

/-- What may be done to a registry. -/
inductive Action where
  | happens (event : Event)
  /-- The ledger stores a transaction, and the cache is told nothing. -/
  | store (transaction : Transaction)
  | startService (period : Nat)
  | stopService
deriving DecidableEq

/-- What is seen of a registry, but for the cache. -/
inductive Mark (L : Type) where
  /-- A transaction was stored or refused. -/
  | taken (result : Except LedgerError Unit)
  /-- A header was handed to the log. -/
  | handed (header : Header)
  /-- A round has ended. -/
  | ended (result : Except RoundError (Option Finalized))
  /-- The ledger after a step. -/
  | holds (ledger : L)

section

variable {L : Type} [Ledger L] (H : DigestFunction)

/-- Stores a transaction without noting how that ended. -/
def stored (registry : Registry L) (transaction : Transaction) :
    Except LedgerError Unit × Registry L :=
  match Ledger.store registry.ledger transaction with
  | .ok ledger => (.ok (), { registry with ledger })
  | .error error => (.error error, registry)

def beginMarks (registry : Registry L) : List (Mark L) :=
  let (begun, after) := registry.beginRound H
  match begun with
  | .ok (some round) => [.handed round.proposal.header, .holds after.ledger]
  | .ok none => [.ended (.ok none), .holds after.ledger]
  | .error error => [.ended (.error error), .holds after.ledger]

def finishMarks (round : Round) (registry : Registry L) : List (Mark L) :=
  let (result, after) := registry.finishRound H round
  [.ended (result.map some), .holds after.ledger]

def serviceMarks (service : Service) (registry : Registry L) : List (Mark L) :=
  let registry : Registry L := { registry with now := service.nextEvent registry.now }
  match service.round with
  | some round => registry.finishMarks H round
  | none => registry.beginMarks H

def serveStepsMarks (limit : Int) : (steps : Nat) → Registry L → List (Mark L)
  | 0, _ => []
  | steps + 1, registry =>
    match registry.service with
    | none => []
    | some service =>
      if service.nextEvent registry.now ≤ limit then
        registry.serviceMarks H service ++
          serveStepsMarks limit steps (registry.serviceEvent H service)
      else []

def serveMarks (limit : Int) (registry : Registry L) : List (Mark L) :=
  match registry.service with
  | none => []
  | some service => serveStepsMarks H limit (2 * ((limit - service.due).toNat + 2)) registry

def roundMarks (registry : Registry L) : List (Mark L) :=
  registry.beginMarks H ++
    match registry.beginRound H with
    | (.ok (some round), begun) =>
      begun.serveMarks H (round.answered - 1) ++
        finishMarks H round
          { begun.serve H (round.answered - 1) with now := round.answered }
    | _ => []

namespace Action

def run (registry : Registry L) : Action → Registry L
  | .happens event => event.run H registry
  | .store transaction => (registry.stored transaction).2
  | .startService period => registry.startService period
  | .stopService => registry.stopService H

/-- What is seen while an action runs. -/
def marks (registry : Registry L) : Action → List (Mark L)
  | .store transaction =>
    let (result, after) := registry.stored transaction
    [.taken result, .holds after.ledger]
  | .happens (.submit transaction) =>
    let (result, after) := registry.submit transaction
    [.taken result, .holds after.ledger]
  | .happens .round => registry.roundMarks H
  | .happens (.advance milliseconds) => registry.serveMarks H (registry.now + milliseconds)
  | .stopService =>
    match registry.service with
    | some ⟨_, _, some round⟩ => finishMarks H round { registry with now := round.answered }
    | _ => []
  | action => [.holds (action.run H registry).ledger]

end Action

/-- Runs actions one after the other. Before the action with a number, others make of the cache
whatever `disturb` says. -/
def runDisturbed (disturb : Nat → Cache.Site → Cache.Site) :
    (number : Nat) → Registry L → List Action → List (Mark L) × Registry L
  | _, registry, [] => ([], registry)
  | number, registry, action :: rest =>
    let registry : Registry L := { registry with cache := disturb number registry.cache }
    let (marks, final) := runDisturbed disturb (number + 1) (action.run H registry) rest
    (action.marks H registry ++ marks, final)

end

/-! ### Nothing is missed -/

/-- The ledger at the end of what was seen. -/
def lastLedger {L : Type} (ledger : L) (marks : List (Mark L)) : L :=
  marks.foldl (fun ledger mark => match mark with
    | .holds changed => changed
    | _ => ledger) ledger

/-- The headers that were handed to the log. -/
def handedHeaders {L : Type} (marks : List (Mark L)) : List Header :=
  marks.filterMap fun mark => match mark with
    | .handed header => some header
    | _ => none

/-- What was seen accounts for the ledger and for the answers that the log has given. -/
structure Accounts {L : Type} (registry : Registry L) (marks : List (Mark L))
    (after : Registry L) : Prop where
  ledger : after.ledger = lastLedger registry.ledger marks
  log : after.log = registry.log.drop (handedHeaders marks).length

section

variable {L : Type} {registry middle after : Registry L} {marks more : List (Mark L)}

theorem Accounts.nil (registry : Registry L) : Accounts registry [] registry := ⟨rfl, rfl⟩

theorem Accounts.append (first : Accounts registry marks middle)
    (second : Accounts middle more after) : Accounts registry (marks ++ more) after where
  ledger := by
    rw [second.ledger, first.ledger, lastLedger, lastLedger, lastLedger, List.foldl_append]
  log := by
    rw [second.log, first.log, List.drop_drop, handedHeaders, handedHeaders, handedHeaders,
      List.filterMap_append, List.length_append]

end

section

variable {L : Type} [Ledger L] {H : DigestFunction}

theorem accounts_beginRound (registry : Registry L) :
    Accounts registry (registry.beginMarks H) (registry.beginRound H).2 := by
  simp only [beginMarks, beginRound, offer]
  cases Ledger.propose H registry.maxExponent (Int64.ofInt registry.now) registry.ledger with
  | error error => exact ⟨rfl, rfl⟩
  | ok result =>
    obtain ⟨proposal, ledger⟩ := result
    cases proposal with
    | none => exact ⟨rfl, rfl⟩
    | some proposal => exact ⟨rfl, List.drop_one.symm⟩

theorem accounts_finishRound (registry : Registry L) (round : Round) :
    Accounts registry (registry.finishMarks H round) (registry.finishRound H round).2 := by
  refine ⟨rfl, ?_⟩
  show (registry.finishRound H round).2.log = registry.log
  simp only [finishRound, settle]
  cases round.answer with
  | error refusal => rfl
  | ok publication =>
    dsimp only
    cases Ledger.finalize registry.ledger (round.proposal.digest H) publication with
    | error error => rfl
    | ok ledger =>
      simp only [Settled.conclude, count]
      rw [tell_eq]

theorem accounts_serviceEvent (registry : Registry L) (service : Service) :
    Accounts registry (registry.serviceMarks H service) (registry.serviceEvent H service) := by
  simp only [serviceMarks, serviceEvent]
  cases service.round with
  | none =>
    have begun := accounts_beginRound (H := H)
      { registry with now := service.nextEvent registry.now }
    exact ⟨begun.ledger, begun.log⟩
  | some round =>
    have finished := accounts_finishRound (H := H)
      { registry with now := service.nextEvent registry.now } round
    exact ⟨finished.ledger, finished.log⟩

theorem accounts_serveSteps (registry : Registry L) (limit : Int) (steps : Nat) :
    Accounts registry (registry.serveStepsMarks H limit steps)
      (registry.serveSteps H limit steps) := by
  induction steps generalizing registry with
  | zero => exact .nil registry
  | succ steps inductionHypothesis =>
    simp only [serveStepsMarks, serveSteps]
    cases registry.service with
    | none => exact .nil registry
    | some service =>
      dsimp only
      split
      · exact (accounts_serviceEvent registry service).append (inductionHypothesis _)
      · exact .nil registry

theorem accounts_serve (registry : Registry L) (limit : Int) :
    Accounts registry (registry.serveMarks H limit) (registry.serve H limit) := by
  simp only [serveMarks, serve]
  cases registry.service with
  | none => exact .nil registry
  | some service => exact accounts_serveSteps registry limit _

theorem accounts_round (registry : Registry L) :
    Accounts registry (registry.roundMarks H) (registry.round H).2 := by
  have begins := accounts_beginRound (H := H) registry
  simp only [roundMarks, round]
  cases began : registry.beginRound H with
  | mk result begun =>
    rw [began] at begins
    cases result with
    | error error => exact begins.append (.nil begun)
    | ok waiting =>
      cases waiting with
      | none => exact begins.append (.nil begun)
      | some round =>
        have serves := accounts_serve (H := H) begun (round.answered - 1)
        have finishes := accounts_finishRound (H := H)
          { begun.serve H (round.answered - 1) with now := round.answered } round
        have finishes : Accounts (begun.serve H (round.answered - 1)) _ _ :=
          ⟨finishes.ledger, finishes.log⟩
        dsimp only
        cases ended : Registry.finishRound H
          { begun.serve H (round.answered - 1) with now := round.answered } round with
        | mk result final =>
          rw [ended] at finishes
          cases result <;> exact begins.append (serves.append finishes)

/-- What is seen while an action runs accounts for what it does. -/
theorem accounts_run (registry : Registry L) (action : Action) :
    Accounts registry (action.marks H registry) (action.run H registry) := by
  cases action with
  | store transaction =>
    simp only [Action.marks, Action.run, stored]
    cases Ledger.store registry.ledger transaction <;> exact ⟨rfl, rfl⟩
  | startService period => exact ⟨rfl, rfl⟩
  | stopService =>
    simp only [Action.marks, Action.run, stopService]
    generalize registry.service = service
    cases service with
    | none => exact ⟨rfl, rfl⟩
    | some service =>
      obtain ⟨period, due, round⟩ := service
      cases round with
      | none => exact ⟨rfl, rfl⟩
      | some round =>
        have finishes := accounts_finishRound (H := H) { registry with
          now := round.answered
          service := some ⟨period, due, some round⟩ } round
        exact ⟨finishes.ledger, finishes.log⟩
  | happens event =>
    cases event with
    | submit transaction =>
      refine ⟨rfl, ?_⟩
      obtain ⟨ledger, cache, same⟩ := registry.exists_submit_eq transaction
      exact congrArg (·.log) same
    | propose maxExponent =>
      refine ⟨rfl, ?_⟩
      show (Event.run H registry (.propose maxExponent)).log = registry.log
      simp only [Event.run]
      cases Ledger.propose H maxExponent (Int64.ofInt registry.now) registry.ledger <;> rfl
    | round => exact accounts_round registry
    | advance milliseconds =>
      have serves := accounts_serve (H := H) registry (registry.now + milliseconds)
      exact ⟨serves.ledger, serves.log⟩
    | markPending name => exact ⟨rfl, rfl⟩
    | setStatus name record => exact ⟨rfl, rfl⟩
    | query name => exact ⟨rfl, rfl⟩

/-- However the cache is disturbed, no change of the ledger and no header is missed. -/
theorem accounts_runDisturbed (disturb : Nat → Cache.Site → Cache.Site) (number : Nat)
    (registry : Registry L) (actions : List Action) :
    Accounts registry (registry.runDisturbed H disturb number actions).1
      (registry.runDisturbed H disturb number actions).2 := by
  induction actions generalizing number registry with
  | nil => exact .nil registry
  | cons action rest inductionHypothesis =>
    have first := accounts_run (H := H)
      { registry with cache := disturb number registry.cache } action
    exact Accounts.append ⟨first.ledger, first.log⟩ (inductionHypothesis _ _)

end

/-! ### Registries that are alike -/

section

variable {L : Type} [Ledger L]

/-- What the ledger and the log do has nothing to do with the cache. -/
theorem accept_with (registry : Registry L) (cache : Cache.Site) (metrics : Metrics)
    (transaction : Transaction) :
    accept { registry with cache, metrics } transaction =
      { registry.accept transaction with
        registry := { (registry.accept transaction).registry with cache, metrics } } := by
  have known : ledgerStatus { registry with cache, metrics } transaction.digest =
      registry.ledgerStatus transaction.digest := rfl
  simp only [accept, known]
  cases Ledger.store registry.ledger transaction with
  | ok ledger => rfl
  | error error =>
    dsimp only
    split <;> rfl

theorem settle_with (H : DigestFunction) (registry : Registry L) (cache : Cache.Site)
    (metrics : Metrics) (round : Round) :
    settle H { registry with cache, metrics } round =
      { registry.settle H round with
        registry := { (registry.settle H round).registry with cache, metrics } } := by
  simp only [settle]
  cases round.answer with
  | error refusal => rfl
  | ok publication =>
    dsimp only
    cases Ledger.finalize registry.ledger (round.proposal.digest H) publication <;> rfl

end

/-- Two registries differ at most in their caches and in what they have counted. -/
def Alike {L : Type} (registry other : Registry L) : Prop :=
  ∃ cache metrics, other = { registry with cache, metrics }

/-- Two operations give the same result and leave registries that are alike. -/
inductive EndAlike {L α : Type} : α × Registry L → α × Registry L → Prop
  | mk (result : α) {registry other : Registry L} (alike : Alike registry other) :
      EndAlike (result, registry) (result, other)

namespace EndAlike

variable {L α : Type} {ended otherEnded : α × Registry L}

theorem exists_eq (same : EndAlike ended otherEnded) : ∃ result registry other,
    ended = (result, registry) ∧ otherEnded = (result, other) ∧ Alike registry other := by
  cases same with
  | mk result alike => exact ⟨result, _, _, rfl, rfl, alike⟩

theorem alike (same : EndAlike ended otherEnded) : Alike ended.2 otherEnded.2 := by
  cases same with
  | mk result alike => exact alike

end EndAlike

namespace Alike

section

variable {L : Type} {registry other third : Registry L}

theorem refl (registry : Registry L) : Alike registry registry :=
  ⟨registry.cache, registry.metrics, rfl⟩

theorem symm (alike : Alike registry other) : Alike other registry := by
  obtain ⟨cache, metrics, rfl⟩ := alike
  exact ⟨registry.cache, registry.metrics, rfl⟩

theorem trans (first : Alike registry other) (second : Alike other third) :
    Alike registry third := by
  obtain ⟨cache, metrics, rfl⟩ := first
  obtain ⟨cache, metrics, rfl⟩ := second
  exact ⟨cache, metrics, rfl⟩

theorem differing (registry : Registry L) (cache : Cache.Site) (metrics : Metrics) :
    Alike registry { registry with cache, metrics } := ⟨cache, metrics, rfl⟩

/-- What others do to the cache changes nothing else. -/
theorem disturbed (registry : Registry L) (cache : Cache.Site) :
    Alike registry { registry with cache } := ⟨cache, registry.metrics, rfl⟩

theorem ledger_eq (alike : Alike registry other) : registry.ledger = other.ledger := by
  obtain ⟨cache, metrics, rfl⟩ := alike
  rfl

theorem service_eq (alike : Alike registry other) : other.service = registry.service := by
  obtain ⟨cache, metrics, rfl⟩ := alike
  rfl

theorem now_eq (alike : Alike registry other) : other.now = registry.now := by
  obtain ⟨cache, metrics, rfl⟩ := alike
  rfl

theorem later (alike : Alike registry other) (now : Int) :
    Alike { registry with now } { other with now } := by
  obtain ⟨cache, metrics, rfl⟩ := alike
  exact ⟨cache, metrics, rfl⟩

theorem serving (alike : Alike registry other) (service : Option Service) :
    Alike { registry with service } { other with service } := by
  obtain ⟨cache, metrics, rfl⟩ := alike
  exact ⟨cache, metrics, rfl⟩

/-- It does not matter what the caches are told. -/
theorem tryStatus (alike : Alike registry other) (name : Digest) (record : StatusRecord) :
    Alike (registry.tryStatus name record) (other.tryStatus name record) := by
  obtain ⟨cache, metrics, rfl⟩ := alike
  exact ⟨_, metrics, rfl⟩

theorem tell (alike : Alike registry other) (news : List (Digest × StatusRecord)) :
    Alike (registry.tell news) (other.tell news) := by
  induction news generalizing registry other with
  | nil => exact alike
  | cons item rest inductionHypothesis => exact inductionHypothesis (alike.tryStatus item.1 item.2)

theorem count (alike : Alike registry other) (result : Except RoundError Finalized) :
    Alike (registry.count result) (other.count result) := by
  obtain ⟨cache, metrics, rfl⟩ := alike
  cases result with
  | error error => exact ⟨cache, metrics, rfl⟩
  | ok finalized => exact ⟨cache, _, rfl⟩

theorem conclude {α : Type} (settled : Settled α L) (cache : Cache.Site) (metrics : Metrics) :
    EndAlike settled.conclude
      { settled with registry := { settled.registry with cache, metrics } }.conclude :=
  .mk _ (tell ⟨cache, metrics, rfl⟩ _)

end

section

variable {L : Type} [Ledger L] {H : DigestFunction} {registry other : Registry L}

theorem stored (alike : Alike registry other) (transaction : Transaction) :
    EndAlike (registry.stored transaction) (other.stored transaction) := by
  obtain ⟨cache, metrics, rfl⟩ := alike
  simp only [Registry.stored]
  cases Ledger.store registry.ledger transaction <;> exact .mk _ ⟨cache, metrics, rfl⟩

theorem submit (alike : Alike registry other) (transaction : Transaction) :
    EndAlike (registry.submit transaction) (other.submit transaction) := by
  obtain ⟨cache, metrics, rfl⟩ := alike
  unfold Registry.submit
  rw [accept_with registry cache metrics]
  exact conclude _ cache metrics

theorem beginRound (alike : Alike registry other) :
    EndAlike (registry.beginRound H) (other.beginRound H) := by
  obtain ⟨cache, metrics, rfl⟩ := alike
  simp only [Registry.beginRound, offer]
  cases Ledger.propose H registry.maxExponent (Int64.ofInt registry.now) registry.ledger with
  | error error => exact .mk _ ⟨cache, metrics, rfl⟩
  | ok result =>
    obtain ⟨proposal, ledger⟩ := result
    cases proposal <;> exact .mk _ ⟨cache, metrics, rfl⟩

theorem finishRound (alike : Alike registry other) (round : Round) :
    EndAlike (registry.finishRound H round) (other.finishRound H round) := by
  obtain ⟨cache, metrics, rfl⟩ := alike
  unfold Registry.finishRound
  rw [settle_with H registry cache metrics]
  obtain ⟨result, ended, otherEnded, same, otherSame, after⟩ :=
    (conclude (registry.settle H round) cache metrics).exists_eq
  simp only [same, otherSame]
  exact .mk _ (after.count result)

/-! ### The service -/

theorem serviceEvent (alike : Alike registry other) (service : Service) :
    Alike (registry.serviceEvent H service) (other.serviceEvent H service) := by
  simp only [Registry.serviceEvent, alike.now_eq]
  have alike := alike.later (service.nextEvent registry.now)
  cases service.round with
  | some round => exact (alike.finishRound round).alike.serving _
  | none =>
    obtain ⟨result, begun, otherBegun, ended, otherEnded, after⟩ :=
      (alike.beginRound (H := H)).exists_eq
    simp only [ended, otherEnded]
    exact after.serving _

theorem serveSteps (alike : Alike registry other) (limit : Int) (steps : Nat) :
    Alike (registry.serveSteps H limit steps) (other.serveSteps H limit steps) := by
  induction steps generalizing registry other with
  | zero => exact alike
  | succ steps inductionHypothesis =>
    simp only [Registry.serveSteps, alike.service_eq, alike.now_eq]
    cases registry.service with
    | none => exact alike
    | some service =>
      dsimp only
      split
      · exact inductionHypothesis (alike.serviceEvent service)
      · exact alike

theorem serve (alike : Alike registry other) (limit : Int) :
    Alike (registry.serve H limit) (other.serve H limit) := by
  simp only [Registry.serve, alike.service_eq]
  cases registry.service with
  | none => exact alike
  | some service => exact alike.serveSteps limit _

theorem round (alike : Alike registry other) :
    EndAlike (registry.round H) (other.round H) := by
  obtain ⟨result, begun, otherBegun, ended, otherEnded, after⟩ :=
    (alike.beginRound (H := H)).exists_eq
  simp only [Registry.round, ended, otherEnded]
  cases result with
  | error error => exact .mk _ after
  | ok waiting =>
    cases waiting with
    | none => exact .mk _ after
    | some round =>
      have after := (after.serve (H := H) (round.answered - 1)).later round.answered
      obtain ⟨result, final, otherFinal, ended, otherEnded, alikeFinal⟩ :=
        (after.finishRound (H := H) round).exists_eq
      simp only [ended, otherEnded]
      cases result <;> exact .mk _ alikeFinal

theorem stopService (alike : Alike registry other) :
    Alike (registry.stopService H) (other.stopService H) := by
  obtain ⟨cache, metrics, rfl⟩ := alike
  simp only [Registry.stopService]
  split
  · rename_i round waits
    have later := (differing registry cache metrics).later round.answered
    exact (later.finishRound (H := H) round).alike.serving none
  · exact (differing registry cache metrics).serving none

theorem event (alike : Alike registry other) (event : Event) :
    Alike (event.run H registry) (event.run H other) := by
  cases event with
  | submit transaction => exact (alike.submit transaction).alike
  | markPending name => exact alike.tryStatus name _
  | setStatus name record => exact alike.tryStatus name record
  | query name =>
    obtain ⟨cache, metrics, rfl⟩ := alike
    exact ⟨_, metrics, rfl⟩
  | propose maxExponent =>
    obtain ⟨cache, metrics, rfl⟩ := alike
    simp only [Event.run]
    split <;> exact ⟨cache, metrics, rfl⟩
  | round => exact alike.round.alike
  | advance milliseconds =>
    simp only [Event.run, advance, alike.now_eq]
    exact (alike.serve _).later _

theorem run (alike : Alike registry other) (action : Action) :
    Alike (action.run H registry) (action.run H other) := by
  cases action with
  | happens event => exact alike.event event
  | store transaction => exact (alike.stored transaction).alike
  | startService period =>
    obtain ⟨cache, metrics, rfl⟩ := alike
    exact ⟨cache, metrics, rfl⟩
  | stopService => exact alike.stopService

/-! ### What is seen -/

theorem beginMarks (alike : Alike registry other) :
    registry.beginMarks H = other.beginMarks H := by
  obtain ⟨result, _, _, ended, otherEnded, cache, metrics, rfl⟩ := (alike.beginRound (H := H)).exists_eq
  simp only [Registry.beginMarks, ended, otherEnded]

theorem finishMarks (alike : Alike registry other) (round : Round) :
    registry.finishMarks H round = other.finishMarks H round := by
  obtain ⟨result, _, _, ended, otherEnded, cache, metrics, rfl⟩ :=
    (alike.finishRound (H := H) round).exists_eq
  simp only [Registry.finishMarks, ended, otherEnded]

theorem serviceMarks (alike : Alike registry other) (service : Service) :
    registry.serviceMarks H service = other.serviceMarks H service := by
  simp only [Registry.serviceMarks, alike.now_eq]
  have alike := alike.later (service.nextEvent registry.now)
  cases service.round with
  | none => exact alike.beginMarks
  | some round => exact alike.finishMarks round

theorem serveStepsMarks (alike : Alike registry other) (limit : Int) (steps : Nat) :
    registry.serveStepsMarks H limit steps = other.serveStepsMarks H limit steps := by
  induction steps generalizing registry other with
  | zero => rfl
  | succ steps inductionHypothesis =>
    simp only [Registry.serveStepsMarks, alike.service_eq, alike.now_eq]
    cases registry.service with
    | none => rfl
    | some service =>
      simp only [alike.serviceMarks, inductionHypothesis (alike.serviceEvent service)]

theorem serveMarks (alike : Alike registry other) (limit : Int) :
    registry.serveMarks H limit = other.serveMarks H limit := by
  simp only [Registry.serveMarks, alike.service_eq, alike.serveStepsMarks]

theorem roundMarks (alike : Alike registry other) :
    registry.roundMarks H = other.roundMarks H := by
  obtain ⟨result, begun, otherBegun, ended, otherEnded, after⟩ :=
    (alike.beginRound (H := H)).exists_eq
  simp only [Registry.roundMarks, ended, otherEnded, alike.beginMarks]
  cases result with
  | error error => rfl
  | ok waiting =>
    cases waiting with
    | none => rfl
    | some round =>
      have later := (after.serve (H := H) (round.answered - 1)).later round.answered
      simp only [after.serveMarks, later.finishMarks]

/-- The same is seen of registries that are alike. -/
theorem marks (alike : Alike registry other) (action : Action) :
    action.marks H registry = action.marks H other := by
  have ledger := (alike.run (H := H) action).ledger_eq
  cases action with
  | store transaction =>
    obtain ⟨result, _, _, ended, otherEnded, cache, metrics, rfl⟩ := (alike.stored transaction).exists_eq
    simp only [Action.marks, ended, otherEnded]
  | startService period => exact congrArg (fun ledger => [Mark.holds ledger]) ledger
  | stopService =>
    obtain ⟨cache, metrics, rfl⟩ := alike
    simp only [Action.marks]
    split
    · rename_i round waits
      exact ((differing registry cache metrics).later round.answered).finishMarks round
    · rfl
  | happens event =>
    cases event with
    | submit transaction =>
      obtain ⟨result, _, _, ended, otherEnded, cache, metrics, rfl⟩ := (alike.submit transaction).exists_eq
      simp only [Action.marks, ended, otherEnded]
    | round => exact alike.roundMarks
    | advance milliseconds =>
      simp only [Action.marks, alike.now_eq]
      exact alike.serveMarks _
    | _ => exact congrArg (fun ledger => [Mark.holds ledger]) ledger

theorem runDisturbed (alike : Alike registry other)
    (disturb disturbOther : Nat → Cache.Site → Cache.Site) (number : Nat) (actions : List Action) :
    (registry.runDisturbed H disturb number actions).1 =
        (other.runDisturbed H disturbOther number actions).1 ∧
      Alike (registry.runDisturbed H disturb number actions).2
        (other.runDisturbed H disturbOther number actions).2 := by
  induction actions generalizing registry other number with
  | nil => exact ⟨rfl, alike⟩
  | cons action rest inductionHypothesis =>
    have alike : Alike { registry with cache := disturb number registry.cache }
        { other with cache := disturbOther number other.cache } :=
      ((disturbed registry _).symm.trans alike).trans (disturbed other _)
    obtain ⟨marks, final⟩ := inductionHypothesis (alike.run (H := H) action) (number + 1)
    refine ⟨?_, final⟩
    simp only [Registry.runDisturbed, alike.marks action, marks]

end

end Alike

/-- What was seen accounts for every registry that is alike. -/
theorem Accounts.alike {L : Type} {registry after other : Registry L} {marks : List (Mark L)}
    (accounts : Accounts registry marks after) (alike : Alike after other) :
    Accounts registry marks other := by
  obtain ⟨cache, metrics, rfl⟩ := alike
  exact ⟨accounts.ledger, accounts.log⟩

/-- Whatever is in the cache, and whatever becomes of it at any time, the same is seen of a
registry: how each transaction is taken, which headers are handed to the log, how each round ends
and each ledger on the way. -/
theorem runDisturbed_eq {L : Type} [Ledger L] (H : DigestFunction) (registry : Registry L)
    (cache : Cache.Site) (disturb disturbOther : Nat → Cache.Site → Cache.Site)
    (actions : List Action) :
    let (marks, final) := registry.runDisturbed H disturb 0 actions
    let (otherMarks, otherFinal) :=
      runDisturbed H disturbOther 0 { registry with cache } actions
    marks = otherMarks ∧ Alike final otherFinal ∧ Accounts registry marks final := by
  obtain ⟨marks, alike⟩ :=
    (Alike.disturbed registry cache).runDisturbed (H := H) disturb disturbOther 0 actions
  exact ⟨marks, alike, accounts_runDisturbed disturb 0 registry actions⟩

end Registry

end StreamLedger
