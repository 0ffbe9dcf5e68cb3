/-
A registry: a ledger with a cache of statuses before it and a log that its blocks are
published in. Transactions come in through `submit`, and rounds of finalization publish the
next block. A round takes the next block from the ledger, waits for the log, records the
publication and marks the block's transactions. If the log turns the block down, the ledger
offers the same block to the next round. Time is a number of milliseconds since the
beginning of 1970 and is part of the state, and what the log will answer is given in advance.
-/
import StreamLedger.Cache.Tracking
import StreamLedger.Ledger.Basic
import StreamLedger.Log

namespace StreamLedger

/-- Why a round did not finalize its block. -/
inductive RoundError where
  | ledger (error : LedgerError)
  | publish (refusal : Log.Refusal)
deriving DecidableEq

def RoundError.message : RoundError → String
  | .ledger error => "repository error: " ++ error.message
  | .publish refusal => "publish error: " ++ refusal.message

/-- What a round finalized. -/
structure Finalized where
  block : Digest
  transactions : Nat
deriving DecidableEq

/-- A block that was handed to the log, and the answer that is on its way. -/
structure Round where
  proposal : Proposal
  answer : Except Log.Refusal Publication
  /-- When the answer comes. -/
  answered : Int

/-- What the rounds of a registry finalized, since it started. -/
structure Metrics where
  blocks : Nat
  transactions : Nat
  /-- How often the time of a round was taken. -/
  samples : Nat
deriving DecidableEq

/-- Rounds that begin at fixed times. -/
structure Service where
  /-- The milliseconds between two rounds; at least one. -/
  period : Nat
  /-- When the next round is to begin. -/
  due : Int
  /-- The round that waits for the log. -/
  round : Option Round

structure Registry (L : Type) where
  ledger : L
  cache : Cache.Site
  /-- A block takes at most `2 ^ maxExponent` transactions. -/
  maxExponent : Nat
  /-- What the log answers to the next headers; after that it is the local log. -/
  log : List Log.Answer
  now : Int
  metrics : Metrics
  service : Option Service

namespace Registry

/-- How long a status stays in the cache unless told otherwise: an hour. -/
def defaultTtl : Nat := 3600000

/-- How many statuses the cache holds unless told otherwise. -/
def defaultCapacity : Nat := 100000

/-- A registry with an empty cache before a ledger. -/
def start {L : Type} (ledger : L) (maxExponent capacity ttl : Nat) (log : List Log.Answer)
    (now : Int) : Registry L :=
  ⟨ledger, Cache.Site.empty capacity ttl, maxExponent, log, now, ⟨0, 0, 0⟩, none⟩

/-- The registry with an emptied cache, as after it was closed and opened. -/
def reopen {L : Type} (registry : Registry L) : Registry L :=
  { registry with
    cache := Cache.Site.empty registry.cache.store.capacity registry.cache.ttl }

/-! ### Statuses -/

section Statuses

variable {L : Type} [Ledger L] (registry : Registry L)

/-- What the ledger says about a transaction; unknown if it cannot say. -/
def ledgerStatus (transaction : Digest) : Status :=
  match Ledger.status registry.ledger transaction with
  | .ok status => status
  | .error _ => .unknown

/-- Runs an exchange with the cache. -/
def ask {α : Type} (exchange : Cache.Exchange α) : α × Registry L :=
  let (result, cache) := registry.cache.run registry.now exchange
  (result, { registry with cache })

/-- The record of a transaction's status. -/
def status (transaction : Digest) : StatusRecord × Registry L :=
  registry.ask (Cache.query transaction (registry.ledgerStatus transaction) registry.cache.ttl)

/-- Moves a transaction to a status, unless that is lower than the cached one. -/
def setStatus (transaction : Digest) (record : StatusRecord) :
    Except Cache.Unavailable Cache.Outcome × Registry L :=
  registry.ask (Cache.update transaction record registry.cache.ttl)

/-- Moves a transaction to a status if the cache can be reached. -/
def tryStatus (transaction : Digest) (record : StatusRecord) : Registry L :=
  (registry.setStatus transaction record).2

/-- Notes that a transaction was accepted and will be submitted. -/
def markPending (transaction : Digest) : Registry L :=
  registry.tryStatus transaction (.bare .pending)

/-- Moves transactions to statuses, one after the other, if the cache can be reached. -/
def tell (news : List (Digest × StatusRecord)) : Registry L :=
  news.foldl (fun registry (transaction, record) => registry.tryStatus transaction record) registry

end Statuses

/-- What an operation has come to when all that is left is to tell the cache. -/
structure Settled (α L : Type) where
  result : α
  registry : Registry L
  /-- The statuses that the cache is to be told, in their order. -/
  news : List (Digest × StatusRecord)

/-- Tells the cache. -/
def Settled.conclude {α L : Type} (settled : Settled α L) : α × Registry L :=
  (settled.result, settled.registry.tell settled.news)

/-! ### Storing -/

section Storing

variable {L : Type} [Ledger L] (registry : Registry L)

/-- Stores a transaction in the ledger. A refusal of a transaction that the ledger has already
changes nothing about its status. -/
def accept (transaction : Transaction) : Settled (Except LedgerError Unit) L :=
  match Ledger.store registry.ledger transaction with
  | .ok ledger =>
    ⟨.ok (), { registry with ledger }, [(transaction.digest, .bare .committed)]⟩
  | .error error =>
    if registry.ledgerStatus transaction.digest = .unknown then
      ⟨.error error, registry, [(transaction.digest, ⟨.failed, some error.message⟩)]⟩
    else ⟨.error error, registry, []⟩

/-- Stores a transaction and notes how that ended. -/
def submit (transaction : Transaction) : Except LedgerError Unit × Registry L :=
  (registry.accept transaction).conclude

end Storing


/-! ### Rounds -/

section Rounds

variable {L : Type} [Ledger L] (H : DigestFunction) (registry : Registry L)

/-- Takes the next block from the ledger; none if nothing waits. -/
def offer : Except RoundError (Option Proposal) × Registry L :=
  match Ledger.propose H registry.maxExponent (Int64.ofInt registry.now) registry.ledger with
  | .error error => (.error (.ledger error), registry)
  | .ok (proposal, ledger) => (.ok proposal, { registry with ledger })

/-- Hands a block to the log. -/
def handOver (proposal : Proposal) : Round × Registry L :=
  let answer := registry.log.head?.getD Log.Answer.ofLocalLog
  (⟨proposal, answer.verdict.publication H proposal.header, registry.now + answer.delay⟩,
    { registry with log := registry.log.tail })

/-- Takes the next block from the ledger and hands it to the log; no round if nothing waits. -/
def beginRound : Except RoundError (Option Round) × Registry L :=
  match registry.offer H with
  | (.error error, registry) => (.error error, registry)
  | (.ok none, registry) => (.ok none, registry)
  | (.ok (some proposal), registry) =>
    let (round, registry) := registry.handOver H proposal
    (.ok (some round), registry)

/-- Records the log's answer to a round. The statuses of a block that it finalizes move. -/
def settle (round : Round) : Settled (Except RoundError Finalized) L :=
  match round.answer with
  | .error refusal => ⟨.error (.publish refusal), registry, []⟩
  | .ok publication =>
    let name := round.proposal.digest H
    match Ledger.finalize registry.ledger name publication with
    | .error error => ⟨.error (.ledger error), registry, []⟩
    | .ok ledger =>
      let transactions := round.proposal.transactions
      ⟨.ok ⟨name, transactions.length⟩, { registry with ledger },
        transactions.map fun transaction => (transaction, .bare .finalized)⟩

/-- Counts a round if it has finalized its block. -/
def count (result : Except RoundError Finalized) : Registry L :=
  match result with
  | .error _ => registry
  | .ok finalized =>
    { registry with
      metrics := ⟨registry.metrics.blocks + 1,
        registry.metrics.transactions + finalized.transactions, registry.metrics.samples + 1⟩ }

/-- Ends a round with the log's answer. -/
def finishRound (round : Round) : Except RoundError Finalized × Registry L :=
  let (result, registry) := (registry.settle H round).conclude
  (result, registry.count result)

end Rounds

end Registry

end StreamLedger
