/-
How the status of a transaction is looked up and moved in the cache. The cache keeps status
records under the transactions' digests. A query that finds none asks the ledger and puts
what the ledger says into the cache, unless somebody was faster. An update reads the record,
refuses to lower its status, and writes only over the bytes that it read; it does not try a
second time.
-/
import StreamLedger.Cache.Exchange
import StreamLedger.Digest
import StreamLedger.Status

namespace StreamLedger.Cache

/-- How an update ended. -/
inductive Outcome where
  | written
  /-- The cached status is higher. -/
  | downgradeRejected
  /-- The cached bytes changed after they were read. -/
  | raceAbandoned
deriving DecidableEq

/-- The record in what a lookup gave, if it gave a readable one. -/
def readable : Except Unavailable (Option Bytes) → Option StatusRecord
  | .ok (some bytes) =>
    match StatusRecord.decode bytes with
    | .ok record => some record
    | .error _ => none
  | .ok none | .error _ => none

/-- Looks up a transaction's record. `ledgerStatus` is what the ledger says, and `ttl` how
long it stays in the cache. When somebody else's record was there first, it counts if it
is not behind the ledger. -/
def query (transaction : Digest) (ledgerStatus : Status) (ttl : Nat) : Exchange StatusRecord :=
  let key := transaction.bytes
  let record := StatusRecord.bare ledgerStatus
  .ask (.get key) fun reply =>
    match readable reply with
    | some cached => .done cached
    | none =>
      .ask (.setIfAbsent key record.encode ttl) fun
        | .error _ | .ok true => .done record
        | .ok false =>
          .ask (.get key) fun reply =>
            match readable reply with
            | some existing =>
              if record.status ≤ existing.status then .done existing else .done record
            | none => .done record

/-- Moves a transaction to `record`, which stays in the cache for `ttl`. After a lost race the
store is asked once more, only to tell what is there now. -/
def update (transaction : Digest) (record : StatusRecord) (ttl : Nat) :
    Exchange (Except Unavailable Outcome) :=
  let key := transaction.bytes
  .ask (.get key) fun
    | .error error => .done (.error error)
    | .ok bytes =>
      let write := .ask (.compareAndSet key bytes record.encode ttl) fun
        | .error error => .done (.error error)
        | .ok true => .done (.ok .written)
        | .ok false => .ask (.get key) fun _ => .done (.ok .raceAbandoned)
      match readable (.ok bytes) with
      | some current =>
        if record.status < current.status then .done (.ok .downgradeRejected) else write
      | none => write

end StreamLedger.Cache
