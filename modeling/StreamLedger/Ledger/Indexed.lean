/-
A ledger held in memory. Transactions and blocks stand in lists in the order of their
positions, with indexes beside them from digests and streams to places in the lists. An
index is a list of pairs in which the newest pair for a key counts.
-/
import StreamLedger.Bisection
import StreamLedger.Ledger.Basic

namespace StreamLedger

structure IndexedLedger where
  /-- The transactions by position. -/
  transactions : List Transaction
  /-- The position of each digest. -/
  positions : List (Digest × Nat)
  /-- The positions of each stream's transactions, in the stream's order. -/
  streams : List (StreamId × List Nat)
  /-- The blocks by their place in the chain. -/
  blocks : List Block
  /-- The place in the chain of each block's name. -/
  places : List (Digest × Nat)
deriving DecidableEq

namespace IndexedLedger

def empty : IndexedLedger := ⟨[], [], [], [], []⟩

instance : Inhabited IndexedLedger := ⟨empty⟩

variable (ledger : IndexedLedger)

/-- The positions of a stream's transactions. -/
def positionsOf (stream : StreamId) : List Nat := (ledger.streams.lookup stream).getD []

/-- The transactions at the positions `first` to `last`. -/
def slice (first last : UInt64) : List Transaction :=
  (ledger.transactions.drop first.toNat).take (last.toNat + 1 - first.toNat)

def inBlock (block : Block) : List Transaction := ledger.slice block.first block.last

/-- The block that covers a position, if a block does: the first whose end is not before it. -/
def covering (position : Nat) : Option Block :=
  let position := UInt64.ofNat position
  let place := partitionPoint (fun block => decide (block.last < position)) ledger.blocks
  ledger.blocks[place]?.filter fun block => block.contains position

def store (transaction : Transaction) : Except LedgerError IndexedLedger :=
  let positions := ledger.positionsOf transaction.stream
  let expected := UInt64.ofNat positions.length
  if transaction.index ≠ expected then
    .error (.outOfOrder transaction.stream expected transaction.index)
  else if (ledger.positions.lookup transaction.digest).isSome then
    .error (.duplicate transaction.digest)
  else
    let position := ledger.transactions.length
    .ok { ledger with
      transactions := ledger.transactions ++ [transaction]
      positions := (transaction.digest, position) :: ledger.positions
      streams := (transaction.stream, positions ++ [position]) :: ledger.streams }

def blockOf (digest : Digest) : Option Block :=
  (ledger.positions.lookup digest).bind ledger.covering

def status (digest : Digest) : Status :=
  match ledger.positions.lookup digest with
  | none => .unknown
  | some position =>
    match ledger.covering position with
    | some block => if block.isFinalized then .finalized else .committed
    | none => .committed

def stream (stream : StreamId) : List Transaction :=
  (ledger.positionsOf stream).filterMap (ledger.transactions[·]?)

def page (skip take : Nat) (withTransactions : Bool) : List BlockEntry :=
  ((ledger.blocks.zipIdx.drop skip).take take).map fun (block, place) =>
    ⟨place + 1, block, if withTransactions then ledger.inBlock block else []⟩

def transactionsOf (block : Digest) : Except LedgerError (List Transaction) :=
  match (ledger.places.lookup block).bind (ledger.blocks[·]?) with
  | some block => .ok (ledger.inBlock block)
  | none => .error (.unknownBlock block)

/-- Appends a block after `previous`, if transactions wait. -/
def extend (H : DigestFunction) (maxExponent : Nat) (now : Int64) (previous : Option Block) :
    Except LedgerError (Option Proposal × IndexedLedger) :=
  let first := Block.nextPosition previous
  let total := UInt64.ofNat ledger.transactions.length
  if total ≤ first then .ok (none, ledger)
  else
    let size := UInt64.ofNat (blockSize (total - first).toNat maxExponent)
    let last := first + size - 1
    let batch := ledger.slice first last
    match Header.next H previous (batch.map (·.payload)) now with
    | .error error => .error error
    | .ok header =>
      let block := Block.pending header first last
      .ok (some (block.proposal batch), { ledger with
        blocks := ledger.blocks ++ [block]
        places := (block.digest H, ledger.blocks.length) :: ledger.places })

def propose (H : DigestFunction) (maxExponent : Nat) (now : Int64) :
    Except LedgerError (Option Proposal × IndexedLedger) :=
  match ledger.blocks.getLast? with
  | some block =>
    if block.isFinalized then ledger.extend H maxExponent now (some block)
    else .ok (some (block.proposal (ledger.inBlock block)), ledger)
  | none => ledger.extend H maxExponent now none

def finalize (name : Digest) (publication : Publication) : Except LedgerError IndexedLedger :=
  match ledger.places.lookup name with
  | none => .error (.notPending name)
  | some place =>
    match ledger.blocks[place]? with
    | none => .error (.notPending name)
    | some block =>
      if block.isFinalized then .error (.notPending name)
      else
        let published := { block with publication := some publication }
        .ok { ledger with blocks := ledger.blocks.set place published }

instance : Ledger IndexedLedger where
  store := store
  status ledger digest := .ok (ledger.status digest)
  stream ledger id := .ok (ledger.stream id)
  blockOf ledger digest := .ok (ledger.blockOf digest)
  page ledger skip take withTransactions := .ok (ledger.page skip take withTransactions)
  transactionsOf := transactionsOf
  propose H maxExponent now ledger := ledger.propose H maxExponent now
  finalize := finalize
  size ledger := .ok (UInt64.ofNat ledger.transactions.length)

end IndexedLedger

end StreamLedger
