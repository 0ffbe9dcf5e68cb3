/-
Time and the service that runs rounds at fixed times. The first round begins one period
after the start. Rounds never overlap: one that becomes due while another waits for the log
begins when that has ended. If it then begins more than five milliseconds late, the service
goes on at the next multiple of the period; otherwise the next round is due one period
after this one was. The service stops only between rounds, and a failed round does not
stop it. A round that is run by hand takes its own turn at the log.
-/
import StreamLedger.Registry

namespace StreamLedger

/-- The shortest period, in nanoseconds. -/
def minimalPeriod : Nat := 1000000

/-- The period that a service asked to take `nanoseconds` takes. -/
def settledPeriod (nanoseconds : Nat) : Nat := max nanoseconds minimalPeriod

/-- The milliseconds between two rounds unless told otherwise. -/
def defaultPeriod : Nat := 5000

namespace Service

/-- A service that was started at a time. -/
def startedAt (now : Int) (period : Nat) : Service :=
  let period := settledPeriod (period * 1000000) / 1000000
  ⟨period, now + period, none⟩

/-- How late, in milliseconds, a round may begin without rounds being skipped. -/
def tolerance : Int := 5

/-- When the round after one that begins `now` is due. -/
def dueAfter (service : Service) (now : Int) : Int :=
  if tolerance < now - service.due then
    now + service.period - (now - service.due) % service.period
  else service.due + service.period

/-- When the service next does something: it gets the log's answer or begins a round. -/
def nextEvent (service : Service) (now : Int) : Int :=
  match service.round with
  | some round => round.answered
  | none => max service.due now

end Service

namespace Registry

variable {L : Type} [Ledger L] (H : DigestFunction)

/-- What the service does at its next event. -/
def serviceEvent (registry : Registry L) (service : Service) : Registry L :=
  let registry : Registry L := { registry with now := service.nextEvent registry.now }
  match service.round with
  | some round =>
    { (registry.finishRound H round).2 with service := some { service with round := none } }
  | none =>
    let due := service.dueAfter registry.now
    let (begun, registry) := registry.beginRound H
    let round := match begun with
      | .ok round => round
      | .error _ => none
    { registry with service := some { service with due, round } }

/-- Lets the service do what it has to do up to `limit`, at most `steps` events. -/
def serveSteps (limit : Int) : (steps : Nat) → Registry L → Registry L
  | 0, registry => registry
  | steps + 1, registry =>
    match registry.service with
    | none => registry
    | some service =>
      if service.nextEvent registry.now ≤ limit then
        serveSteps limit steps (registry.serviceEvent H service)
      else registry

/-- Lets the service do what it has to do up to `limit`. Every round has two events and moves
the time at which the next one is due by at least a millisecond, which bounds the events. -/
def serve (limit : Int) (registry : Registry L) : Registry L :=
  match registry.service with
  | none => registry
  | some service => serveSteps H limit (2 * ((limit - service.due).toNat + 2)) registry

/-- Lets time pass. -/
def advance (milliseconds : Nat) (registry : Registry L) : Registry L :=
  let target := registry.now + milliseconds
  { registry.serve H target with now := target }

/-- Runs one round to its end. While it waits for the log, time passes. -/
def round (registry : Registry L) : Except RoundError (Option Finalized) × Registry L :=
  match registry.beginRound H with
  | (.error error, registry) => (.error error, registry)
  | (.ok none, registry) => (.ok none, registry)
  | (.ok (some round), registry) =>
    let registry : Registry L :=
      { registry.serve H (round.answered - 1) with now := round.answered }
    match registry.finishRound H round with
    | (.ok finalized, registry) => (.ok (some finalized), registry)
    | (.error error, registry) => (.error error, registry)

/-- Starts the service with a period in milliseconds. -/
def startService (period : Nat) (registry : Registry L) : Registry L :=
  { registry with service := some (Service.startedAt registry.now period) }

/-- Stops the service. A round that waits for the log ends first. -/
def stopService (registry : Registry L) : Registry L :=
  match registry.service with
  | some ⟨_, _, some round⟩ =>
    let registry : Registry L := { registry with now := round.answered }
    { (registry.finishRound H round).2 with service := none }
  | _ => { registry with service := none }

end Registry

end StreamLedger
