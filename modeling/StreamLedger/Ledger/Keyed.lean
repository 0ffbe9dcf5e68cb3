/-
A ledger kept in a table of byte strings, so that it can be written to disk. A transaction
stands under its position, and its position under its digest and under its place in its
stream; a block stands under its last position, and that under the block's name. The number
of transactions has a key of its own. A table that this ledger did not write may lack
entries or hold unreadable ones, which reading it then reports.
-/
import StreamLedger.Ledger.Basic
import StreamLedger.Table.Key

namespace StreamLedger

structure KeyedLedger where
  table : Table

namespace KeyedLedger

def empty : KeyedLedger := ⟨Table.empty⟩

instance : Inhabited KeyedLedger := ⟨empty⟩

/-- What reading the table gives, as what an operation of the ledger gives. -/
def stored {α : Type} : Except StoreError α → Except LedgerError α
  | .ok value => .ok value
  | .error error => .error (.store error)

variable (ledger : KeyedLedger)

def read {α : Type} (format : Format α) (key : Bytes) : Except LedgerError (Option α) :=
  stored (ledger.table.read format key)

def size : Except LedgerError UInt64 := do
  return (← ledger.read Format.word64 Key.transactionCount).getD 0

/-- The place that the next transaction of a stream takes. -/
def nextIndex (id : StreamId) : Except LedgerError UInt64 :=
  match ledger.table.lastKeyUnder (Key.stream id) with
  | none => .ok 0
  | some key => (stored (Key.lastNumber key)).map (· + 1)

def transactionAt (position : UInt64) : Except LedgerError Transaction := do
  match ← ledger.read Transaction.format (Key.transaction position) with
  | some transaction => return transaction
  | none => throw (.corrupted (.missingTransaction position))

/-- The transactions at the positions `first` to `last`, as far as there are any. -/
def slice (first last : UInt64) : Except LedgerError (List Transaction) :=
  stored (ledger.table.readBetween Transaction.format (Key.transaction first) (Key.transaction last))

def inBlock (block : Block) : Except LedgerError (List Transaction) :=
  ledger.slice block.first block.last

/-- The block that covers a position, if a block does: the first whose end is not before it. -/
def covering (position : UInt64) : Except LedgerError (Option Block) := do
  let block ← stored (ledger.table.readFirstFrom Block.format Key.blockStem (Key.block position))
  return block.filter fun block => block.contains position

def named (name : Digest) : Except LedgerError (Option Block) := do
  match ← ledger.read Format.word64 (Key.blockDigest name) with
  | none => return none
  | some last =>
    match ← ledger.read Block.format (Key.block last) with
    | some block => return some block
    | none => throw (.corrupted (.missingBlock name))

def store (transaction : Transaction) : Except LedgerError KeyedLedger := do
  let expected ← ledger.nextIndex transaction.stream
  if transaction.index ≠ expected then
    throw (.outOfOrder transaction.stream expected transaction.index)
  if ledger.table.contains (Key.transactionDigest transaction.digest) then
    throw (.duplicate transaction.digest)
  let position ← ledger.size
  return ⟨ledger.table.insertAll [
    (Key.transaction position, Transaction.format.encode transaction),
    (Key.transactionDigest transaction.digest, Format.word64.encode position),
    (Key.streamEntry transaction.stream transaction.index, Format.word64.encode position),
    (Key.transactionCount, Format.word64.encode (position + 1))]⟩

def blockOf (digest : Digest) : Except LedgerError (Option Block) := do
  match ← ledger.read Format.word64 (Key.transactionDigest digest) with
  | some position => ledger.covering position
  | none => return none

def status (digest : Digest) : Except LedgerError Status := do
  match ← ledger.read Format.word64 (Key.transactionDigest digest) with
  | none => return .unknown
  | some position =>
    match ← ledger.covering position with
    | some block => return if block.isFinalized then .finalized else .committed
    | none => return .committed

/-- As many stored positions as the table has under the stream, whatever their number. -/
def streamPositions (id : StreamId) : Except LedgerError (List UInt64) :=
  stored (Table.decodeAll Format.word64 (ledger.table.under (Key.stream id)))

def stream (id : StreamId) : Except LedgerError (List Transaction) := do
  (← ledger.streamPositions id).mapM ledger.transactionAt

def page (skip take : Nat) (withTransactions : Bool) : Except LedgerError (List BlockEntry) := do
  let blocks ← stored (ledger.table.readUnder Block.format Key.blockStem skip take)
  blocks.zipIdx.mapM fun (block, place) => do
    let transactions ← if withTransactions then ledger.inBlock block else pure []
    return ⟨skip + place + 1, block, transactions⟩

def transactionsOf (name : Digest) : Except LedgerError (List Transaction) := do
  match ← ledger.named name with
  | some block => ledger.inBlock block
  | none => throw (.unknownBlock name)

/-- Appends a block after `previous`, if transactions wait. -/
def extend (H : DigestFunction) (maxExponent : Nat) (now : Int64) (previous : Option Block) :
    Except LedgerError (Option Proposal × KeyedLedger) := do
  let first := Block.nextPosition previous
  let total ← ledger.size
  if total ≤ first then return (none, ledger)
  let size := UInt64.ofNat (blockSize (total - first).toNat maxExponent)
  let last := first + size - 1
  let batch ← ledger.slice first last
  if UInt64.ofNat batch.length ≠ size then
    throw (.corrupted (.missingInRange size first last batch.length))
  let header ← Header.next H previous (batch.map (·.payload)) now
  let block := Block.pending header first last
  return (some (block.proposal batch), ⟨ledger.table.insertAll [
    (Key.block last, Block.format.encode block),
    (Key.blockDigest (block.digest H), Format.word64.encode last)]⟩)

def propose (H : DigestFunction) (maxExponent : Nat) (now : Int64) :
    Except LedgerError (Option Proposal × KeyedLedger) := do
  match ← stored (ledger.table.readLastUnder Block.format Key.blockStem) with
  | some block =>
    if block.isFinalized then ledger.extend H maxExponent now (some block)
    else return (some (block.proposal (← ledger.inBlock block)), ledger)
  | none => ledger.extend H maxExponent now none

def finalize (name : Digest) (publication : Publication) : Except LedgerError KeyedLedger := do
  match ← ledger.named name with
  | none => throw (.notPending name)
  | some block =>
    if block.isFinalized then throw (.notPending name)
    let published := { block with publication := some publication }
    return ⟨ledger.table.put Block.format (Key.block block.last) published⟩

instance : Ledger KeyedLedger where
  store := store
  status := status
  stream := stream
  blockOf := blockOf
  page := page
  transactionsOf := transactionsOf
  propose H maxExponent now ledger := ledger.propose H maxExponent now
  finalize := finalize
  size := size

end KeyedLedger

end StreamLedger
