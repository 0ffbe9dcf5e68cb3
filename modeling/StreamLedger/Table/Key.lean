/-
The keys of the stored ledger. Each family of keys has a stem of its own, and a number in a
key is written in eight bytes with the most significant first, so that the order of the
keys of a family is that of the numbers.
-/
import StreamLedger.Digest
import StreamLedger.Stream
import StreamLedger.Table

namespace StreamLedger.Key

/-- The bytes of letters that are all ASCII. -/
def letters (text : List Char) : Bytes := text.map Char.toUInt8

def number (value : UInt64) : Bytes := bigEndian 8 value.toNat

/-- The stem `tx:pos:`. -/
def transactionStem : Bytes := letters ['t', 'x', ':', 'p', 'o', 's', ':']

/-- The stem `tx:hash:`. -/
def digestStem : Bytes := letters ['t', 'x', ':', 'h', 'a', 's', 'h', ':']

/-- The stem `stream:`. -/
def streamStem : Bytes := letters ['s', 't', 'r', 'e', 'a', 'm', ':']

/-- The stem `block:range:`. -/
def blockStem : Bytes := letters ['b', 'l', 'o', 'c', 'k', ':', 'r', 'a', 'n', 'g', 'e', ':']

/-- The stem `block:hash:`. -/
def blockDigestStem : Bytes := letters ['b', 'l', 'o', 'c', 'k', ':', 'h', 'a', 's', 'h', ':']

/-- The transaction at a position of the ledger. -/
def transaction (position : UInt64) : Bytes := transactionStem ++ number position

/-- The position of the transaction with a digest. -/
def transactionDigest (digest : Digest) : Bytes := digestStem ++ digest.bytes

/-- The stem of the entries of one stream. -/
def stream (id : StreamId) : Bytes := streamStem ++ id.bytes

/-- The position of a stream's transaction. -/
def streamEntry (id : StreamId) (index : UInt64) : Bytes := stream id ++ number index

/-- The block whose last transaction is at a position. -/
def block (last : UInt64) : Bytes := blockStem ++ number last

/-- The last position of the block with a name. -/
def blockDigest (digest : Digest) : Bytes := blockDigestStem ++ digest.bytes

/-- The key `meta:transaction_count` of the number of transactions. -/
def transactionCount : Bytes :=
  letters ['m', 'e', 't', 'a', ':', 't', 'r', 'a', 'n', 's', 'a', 'c', 't', 'i', 'o', 'n', '_',
    'c', 'o', 'u', 'n', 't']

/-- The number in the last eight bytes of a key. -/
def lastNumber (key : Bytes) : Except StoreError UInt64 :=
  if 8 ≤ key.length then .ok (UInt64.ofNat (ofBigEndian (key.drop (key.length - 8))))
  else .error (.malformedKey key)

end StreamLedger.Key
