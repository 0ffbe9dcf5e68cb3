/-
What a ledger of stream transactions offers, whatever it is kept in. Transactions are
stored at consecutive positions from 0, each at the next place of its stream. The next block
takes the transactions after the last block, and no block follows one that is not finalized.
An operation that is refused leaves the ledger as it was.
-/
import StreamLedger.Block
import StreamLedger.BlockSize
import StreamLedger.Merkle
import StreamLedger.Status
import StreamLedger.Table

namespace StreamLedger

/-- How the entries of a stored ledger contradict each other. -/
inductive Corruption where
  | missingTransaction (position : UInt64)
  /-- The block's name is known, but there is no block under its last position. -/
  | missingBlock (block : Digest)
  | missingInRange (expected first last : UInt64) (found : Nat)
  /-- The block covers the transaction's position, but has no transaction with its digest. -/
  | notInBlock (block transaction : Digest)
deriving DecidableEq

/-- Why a ledger refuses an operation. -/
inductive LedgerError where
  /-- The transaction is not the next one of its stream. -/
  | outOfOrder (stream : StreamId) (expected actual : UInt64)
  /-- There is a transaction with this digest. -/
  | duplicate (transaction : Digest)
  /-- There is no block with this name that waits for its publication. -/
  | notPending (block : Digest)
  | unknownBlock (block : Digest)
  | merkle (error : MerkleError)
  | store (error : StoreError)
  | corrupted (corruption : Corruption)
deriving DecidableEq

def Corruption.message : Corruption → String
  | .missingTransaction position => s!"missing transaction at {position}"
  | .missingBlock block => s!"block {block.marked} has no range entry"
  | .missingInRange expected first last found =>
    s!"expected {expected} transactions in [{first}, {last}], found {found}"
  | .notInBlock block transaction =>
    s!"block {block.marked} does not contain {transaction.marked}"

def LedgerError.message : LedgerError → String
  | .outOfOrder stream expected actual =>
    s!"transaction on stream {stream.text} has index {actual}, expected {expected}"
  | .duplicate transaction => s!"transaction {transaction.marked} already stored"
  | .notPending block => s!"block {block.marked} not found or already finalized"
  | .unknownBlock block => s!"block not found: {block.marked}"
  | .merkle error => "merkle error: " ++ error.message
  | .store error => "storage error: " ++ error.message
  | .corrupted corruption => "corrupted ledger: " ++ corruption.message

/-- The operations of a ledger kept in an `L`. -/
class Ledger (L : Type) where
  /-- Stores a transaction at the next position. -/
  store : L → Transaction → Except LedgerError L
  /-- Unknown, committed or finalized. -/
  status : L → Digest → Except LedgerError Status
  /-- The transactions of a stream, in its order. -/
  stream : L → StreamId → Except LedgerError (List Transaction)
  /-- The block that covers the transaction with a digest. -/
  blockOf : L → Digest → Except LedgerError (Option Block)
  /-- At most `take` blocks of the chain after the first `skip`. -/
  page : L → (skip take : Nat) → (withTransactions : Bool) → Except LedgerError (List BlockEntry)
  /-- The transactions of the block with a name, in the order of their positions. -/
  transactionsOf : L → Digest → Except LedgerError (List Transaction)
  /-- The block to publish next: the last one, if it is not finalized, or else a new one over
  waiting transactions, at most `2 ^ maxExponent` of them; none if none wait. -/
  propose : DigestFunction → (maxExponent : Nat) → (now : Int64) → L →
    Except LedgerError (Option Proposal × L)
  /-- Records the publication of the block with a name. -/
  finalize : L → Digest → Publication → Except LedgerError L
  /-- The number of transactions. -/
  size : L → Except LedgerError UInt64

/-- The header of a block over `payloads` after the block `previous`, whose publication is
part of it. -/
def Header.next (H : DigestFunction) (previous : Option Block) (payloads : List Bytes)
    (now : Int64) : Except LedgerError Header :=
  match Merkle.root H payloads with
  | .error error => .error (.merkle error)
  | .ok merkleRoot =>
    match previous with
    | none => .ok ⟨Digest.zero, Digest.zero, merkleRoot, now⟩
    | some block =>
      match block.publication with
      | none => .error (.notPending (block.digest H))
      | some publication => .ok ⟨block.digest H, publication.digest H, merkleRoot, now⟩

/-- The position after the last block. -/
def Block.nextPosition : Option Block → UInt64
  | none => 0
  | some block => block.last + 1

end StreamLedger
