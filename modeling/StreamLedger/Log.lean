/-
The immutable log that headers are written to. It answers a header with a publication or
turns it down, and it may take its time. A log that only notes the header's digest is at
hand for local runs; it proves nothing to others.
-/
import StreamLedger.Block

namespace StreamLedger.Log

/-- Why a header was not published. -/
inductive Refusal where
  | unavailable (reason : String)
  | rejected (reason : String)
deriving DecidableEq

def Refusal.message : Refusal → String
  | .unavailable reason => "immutable log unavailable: " ++ reason
  | .rejected reason => "publication rejected: " ++ reason

/-- What a log says to a header. -/
inductive Verdict where
  /-- The header's digest is noted. -/
  | noted
  | published (publication : Publication)
  | refused (refusal : Refusal)
deriving DecidableEq

/-- A verdict and the milliseconds until it comes. -/
structure Answer where
  delay : Nat
  verdict : Verdict
deriving DecidableEq

namespace Answer

/-- The local log's answer to every header. -/
def ofLocalLog : Answer := ⟨0, .noted⟩

end Answer

/-- The publication of a header that a verdict means. -/
def Verdict.publication (H : DigestFunction) (header : Header) :
    Verdict → Except Refusal Publication
  | .noted => .ok (.logEntry (header.digest H))
  | .published publication => .ok publication
  | .refused refusal => .error refusal

end StreamLedger.Log
