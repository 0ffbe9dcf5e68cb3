/-
Inclusion proofs: what shows to somebody who trusts a block's Merkle root that a payload is
one of the block's.
-/
import StreamLedger.Merkle
import StreamLedger.Wire

namespace StreamLedger

structure InclusionProof where
  /-- The transaction's digest. -/
  transaction : Digest
  /-- The block's name. -/
  block : Digest
  payload : Bytes
  /-- The place of the transaction in its block, from 0. -/
  index : UInt64
  /-- The digests the payload is combined with, in the order in which they are taken. -/
  path : List Digest
deriving DecidableEq

namespace InclusionProof

/-- The root the proof leads to, if it leads to one. -/
def root (H : DigestFunction) (proof : InclusionProof) : Option Digest :=
  Merkle.rootFromPath H proof.payload proof.index.toNat proof.path

def verifies (H : DigestFunction) (proof : InclusionProof) (merkleRoot : Digest) : Bool :=
  proof.root H == some merkleRoot

def format : Format InclusionProof :=
  ((Format.octets 32).pair ((Format.octets 32).pair (Format.bytes.pair
      (Format.word64.pair (Format.octets 32).list)))).transport
    (fun (transaction, block, payload, index, path) =>
      ⟨transaction, block, payload, index, path⟩)
    (fun proof => (proof.transaction, proof.block, proof.payload, proof.index, proof.path))

end InclusionProof

end StreamLedger
