/-
Inclusion proofs of the transactions of a ledger. A transaction can be proven once its block
is finalized.
-/
import StreamLedger.InclusionProof
import StreamLedger.Ledger.Basic

namespace StreamLedger.Ledger

variable {L : Type} [Ledger L]

/-- The proof that a transaction is in its block; none while no finalized block covers it. -/
def prove (H : DigestFunction) (ledger : L) (transaction : Digest) :
    Except LedgerError (Option InclusionProof) := do
  let some block ← blockOf ledger transaction | return none
  if !block.isFinalized then return none
  let name := block.digest H
  let transactions ← transactionsOf ledger name
  let some index := transactions.findIdx? fun other => other.digest == transaction
    | throw (.corrupted (.notInBlock name transaction))
  match Merkle.path H (transactions.map (·.payload)) index with
  | .error error => throw (.merkle error)
  | .ok path =>
    let payload := (transactions[index]?.map (·.payload)).getD []
    return some ⟨transaction, name, payload, UInt64.ofNat index, path⟩

/-- Whether a proof leads to the Merkle root of the block that covers its transaction. -/
def confirms (H : DigestFunction) (ledger : L) (proof : InclusionProof) : Bool :=
  match blockOf ledger proof.transaction with
  | .ok (some block) => proof.verifies H block.header.merkleRoot
  | .ok none | .error _ => false

end StreamLedger.Ledger
