/-
A registry whose cache goes by a clock with a last time. An operation breaks off where a call to
the cache does. What the ledger and the log have done by then stays done, and what the cache was
told stays told, but the operation has no result, and the rest of the news is lost. No service
runs beside these operations.
-/
import StreamLedger.Registry

namespace StreamLedger.Registry

open Cache (Overrun)

section

variable {L : Type} (horizon : Int)

/-- Runs an exchange with the cache, or as much of it as does not break off. -/
def askWithin {α : Type} (registry : Registry L) (exchange : Cache.Exchange α) :
    Except (Overrun horizon) α × Registry L :=
  let (result, cache) := registry.cache.runWithin horizon registry.now exchange
  (result, { registry with cache })

def setStatusWithin (registry : Registry L) (transaction : Digest) (record : StatusRecord) :
    Except (Overrun horizon) (Except Cache.Unavailable Cache.Outcome) × Registry L :=
  registry.askWithin horizon (Cache.update transaction record registry.cache.ttl)

/-- Moves transactions to statuses, one after the other, until a call breaks off. -/
def tellWithin : List (Digest × StatusRecord) → Registry L →
    Except (Overrun horizon) Unit × Registry L
  | [], registry => (.ok (), registry)
  | (transaction, record) :: rest, registry =>
    match registry.setStatusWithin horizon transaction record with
    | (.ok _, registry) => tellWithin rest registry
    | (.error overrun, registry) => (.error overrun, registry)

/-- Tells the cache. If that breaks off, nobody learns the result. -/
def Settled.concludeWithin {α : Type} (settled : Settled α L) :
    Except (Overrun horizon) α × Registry L :=
  let (told, registry) := settled.registry.tellWithin horizon settled.news
  (told.map fun _ => settled.result, registry)

end

section

variable {L : Type} [Ledger L] (horizon : Int) (registry : Registry L)

def statusWithin (transaction : Digest) : Except (Overrun horizon) StatusRecord × Registry L :=
  registry.askWithin horizon
    (Cache.query transaction (registry.ledgerStatus transaction) registry.cache.ttl)

def submitWithin (transaction : Transaction) :
    Except (Overrun horizon) (Except LedgerError Unit) × Registry L :=
  (registry.accept transaction).concludeWithin horizon

/-- Ends a round with the log's answer. A round that breaks off is not counted. -/
def finishRoundWithin (H : DigestFunction) (round : Round) :
    Except (Overrun horizon) (Except RoundError Finalized) × Registry L :=
  match (registry.settle H round).concludeWithin horizon with
  | (.ok result, registry) => (.ok result, registry.count result)
  | (.error overrun, registry) => (.error overrun, registry)

/-- Runs one round to its end. While it waits for the log, time passes. -/
def roundWithin (H : DigestFunction) :
    Except (Overrun horizon) (Except RoundError (Option Finalized)) × Registry L :=
  match registry.beginRound H with
  | (.error error, registry) => (.ok (.error error), registry)
  | (.ok none, registry) => (.ok (.ok none), registry)
  | (.ok (some round), registry) =>
    let (ended, registry) :=
      finishRoundWithin horizon { registry with now := round.answered } H round
    (ended.map (·.map some), registry)

end

end StreamLedger.Registry
