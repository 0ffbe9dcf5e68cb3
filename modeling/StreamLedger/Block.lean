/-
Blocks: ranges of the ledger's transactions, each under a header that commits to their
payloads and to the block before. A block's name is the digest of its header's bytes. It is
finalized once it carries a publication, the receipt of the log its header was written to.
-/
import StreamLedger.Transaction

namespace StreamLedger

/-- What a block commits to. -/
structure Header where
  /-- The previous block's name, or zero. -/
  previousHeader : Digest
  /-- The digest of the previous block's publication, or zero. -/
  previousPublication : Digest
  /-- The Merkle root over the payloads of the block's transactions. -/
  merkleRoot : Digest
  /-- Milliseconds since the beginning of 1970. -/
  createdAt : Int64
deriving DecidableEq

namespace Header

def format : Format Header :=
  ((Format.octets 32).pair ((Format.octets 32).pair
      ((Format.octets 32).pair Format.int64))).transport
    (fun (previousHeader, previousPublication, merkleRoot, createdAt) =>
      ⟨previousHeader, previousPublication, merkleRoot, createdAt⟩)
    (fun header =>
      (header.previousHeader, header.previousPublication, header.merkleRoot, header.createdAt))

def digest (H : DigestFunction) (header : Header) : Digest := H (format.encode header)

/-- Whether no block comes before. -/
def isGenesis (header : Header) : Bool :=
  header.previousHeader == Digest.zero && header.previousPublication == Digest.zero

end Header

/-- The receipt of the log that a header was written to. -/
inductive Publication where
  /-- Written to a local log, which proves nothing to others. -/
  | logEntry (header : Digest)
  /-- Registered on an external chain. -/
  | external (transaction block : Bytes)
deriving DecidableEq

namespace Publication

def format : Format Publication :=
  ((Format.octets 32).either (Format.bytes.pair Format.bytes)).transport
    (fun
      | .inl header => .logEntry header
      | .inr (transaction, block) => .external transaction block)
    (fun
      | .logEntry header => .inl header
      | .external transaction block => .inr (transaction, block))

def digest (H : DigestFunction) (publication : Publication) : Digest :=
  H (format.encode publication)

end Publication

/-- A block over the transactions at the positions `first` to `last`, both included. -/
structure Block where
  header : Header
  publication : Option Publication
  first : UInt64
  last : UInt64
deriving DecidableEq

namespace Block

def format : Format Block :=
  (Header.format.pair (Publication.format.optional.pair
      (Format.word64.pair Format.word64))).transport
    (fun (header, publication, first, last) => ⟨header, publication, first, last⟩)
    (fun block => (block.header, block.publication, block.first, block.last))

/-- A block that is not published yet. -/
def pending (header : Header) (first last : UInt64) : Block := ⟨header, none, first, last⟩

def digest (H : DigestFunction) (block : Block) : Digest := block.header.digest H

def isFinalized (block : Block) : Bool := block.publication.isSome

/-- The number of transactions. -/
def size (block : Block) : UInt64 := block.last - block.first + 1

def contains (block : Block) (position : UInt64) : Bool :=
  block.first ≤ position && position ≤ block.last

end Block

/-- A block as it is offered for publication. -/
structure Proposal where
  header : Header
  transactions : List Digest
deriving DecidableEq

/-- The offer of a block whose transactions are `transactions`. -/
def Block.proposal (block : Block) (transactions : List Transaction) : Proposal :=
  ⟨block.header, transactions.map (·.digest)⟩

def Proposal.digest (H : DigestFunction) (proposal : Proposal) : Digest := proposal.header.digest H

/-- A line of a listing of blocks. -/
structure BlockEntry where
  /-- The place in the chain, from 1. -/
  height : Nat
  block : Block
  /-- The block's transactions, if they were asked for. -/
  transactions : List Transaction
deriving DecidableEq

end StreamLedger
