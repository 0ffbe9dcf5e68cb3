/-
Transactions: opaque payloads, each at a place in a stream.
-/
import StreamLedger.Digest
import StreamLedger.Stream
import StreamLedger.Wire

namespace StreamLedger

/-- An opaque payload with its place in a stream. The payload is never interpreted: it is
named by its digest, put into blocks and proven to be there. -/
structure Transaction where
  /-- The digest of the payload, as claimed by whoever made the transaction. -/
  digest : Digest
  stream : StreamId
  /-- The place in the stream, from 0. -/
  index : UInt64
  payload : Bytes
deriving DecidableEq

namespace Transaction

/-- A transaction named by the digest of its payload. -/
def ofPayload (H : DigestFunction) (stream : StreamId) (index : UInt64) (payload : Bytes) :
    Transaction :=
  ⟨H payload, stream, index, payload⟩

/-- Whether the claimed digest is the payload's. -/
def hasValidDigest (H : DigestFunction) (transaction : Transaction) : Bool :=
  H transaction.payload == transaction.digest

def format : Format Transaction :=
  ((Format.octets 32).pair (Format.identifier.pair (Format.word64.pair Format.bytes))).transport
    (fun (digest, stream, index, payload) => ⟨digest, stream, index, payload⟩)
    (fun transaction =>
      (transaction.digest, transaction.stream, transaction.index, transaction.payload))

end Transaction

end StreamLedger
