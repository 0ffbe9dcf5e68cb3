/-
The operations of a ledger and their answers as data, so that a history is a list of
operations. Running an operation gives an answer and the ledger after it, which is the
ledger before it if the operation was refused.
-/
import StreamLedger.Ledger.Basic

namespace StreamLedger

namespace Ledger

inductive Operation where
  | store (transaction : Transaction)
  | status (transaction : Digest)
  | stream (id : StreamId)
  | blockOf (transaction : Digest)
  | page (skip take : Nat) (withTransactions : Bool)
  | transactionsOf (block : Digest)
  | propose (maxExponent : Nat) (now : Int64)
  | finalize (block : Digest) (publication : Publication)
  | size
deriving DecidableEq

inductive Answer where
  | done
  | status (status : Status)
  | transactions (transactions : List Transaction)
  | block (block : Option Block)
  | page (entries : List BlockEntry)
  | proposal (proposal : Option Proposal)
  | size (count : UInt64)
  | refused (error : LedgerError)
deriving DecidableEq

variable {L : Type} [Ledger L]

/-- The answer to a question, which leaves the ledger as it is. -/
def answerTo {α : Type} (ledger : L) (answer : α → Answer) : Except LedgerError α → Answer × L
  | .ok value => (answer value, ledger)
  | .error error => (.refused error, ledger)

/-- The answer to a change, with the changed ledger if it was made. -/
def answerOf (ledger : L) : Except LedgerError L → Answer × L
  | .ok changed => (.done, changed)
  | .error error => (.refused error, ledger)

def Operation.run (H : DigestFunction) (ledger : L) : Operation → Answer × L
  | .store transaction => answerOf ledger (Ledger.store ledger transaction)
  | .status transaction => answerTo ledger .status (Ledger.status ledger transaction)
  | .stream id => answerTo ledger .transactions (Ledger.stream ledger id)
  | .blockOf transaction => answerTo ledger .block (Ledger.blockOf ledger transaction)
  | .page skip take withTransactions =>
    answerTo ledger .page (Ledger.page ledger skip take withTransactions)
  | .transactionsOf block => answerTo ledger .transactions (Ledger.transactionsOf ledger block)
  | .propose maxExponent now =>
    match Ledger.propose H maxExponent now ledger with
    | .ok (proposal, changed) => (.proposal proposal, changed)
    | .error error => (.refused error, ledger)
  | .finalize block publication => answerOf ledger (Ledger.finalize ledger block publication)
  | .size => answerTo ledger .size (Ledger.size ledger)

/-- Runs operations one after the other and collects their answers. -/
def runAll (H : DigestFunction) : L → List Operation → List Answer × L
  | ledger, [] => ([], ledger)
  | ledger, operation :: rest =>
    let (answer, changed) := operation.run H ledger
    let (answers, final) := runAll H changed rest
    (answer :: answers, final)

end Ledger

end StreamLedger
