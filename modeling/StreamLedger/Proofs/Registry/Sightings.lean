/-
This file proves that a registry does not depend on its cache by a clock with a last time either. An
operation may then break off, as the cache can not keep for so long what it is told, and if it does,
its result is not seen. All else is seen as by a clock without end: which headers are handed to the
log, each ledger on the way, and the result of each operation that returns. No service runs beside
these operations.
-/
import Mathlib.Data.List.Forall2
import StreamLedger.Ledger.Indexed
import StreamLedger.Proofs.Registry.Horizon

namespace StreamLedger

namespace Registry

open Cache (Overrun)

/-! ### What is seen -/

/-- What may be done to a registry beside which no service runs. -/
inductive Deed where
  | happens (event : Event)
  /-- The ledger stores a transaction, and the cache is told nothing. -/
  | store (transaction : Transaction)
deriving DecidableEq

def Deed.action : Deed → Action
  | .happens event => .happens event
  | .store transaction => .store transaction

section

variable {L : Type} [Ledger L] (horizon : Int) (H : DigestFunction)

namespace Deed

def runWithin (registry : Registry L) : Deed → Registry L
  | .happens event => (event.runWithin horizon H registry).2
  | .store transaction => (registry.stored transaction).2

end Deed

end

/-- What an operation returns is a result. -/
def Mark.IsResult {L : Type} : Mark L → Prop
  | .taken _ | .ended _ => True
  | .handed _ | .holds _ => False

/-- A mark is seen, or else it is a result that is lost. -/
inductive Seen {horizon : Int} {L : Type} : Mark L → Except (Overrun horizon) (Mark L) → Prop
  | whole (mark : Mark L) : Seen mark (.ok mark)
  | lost {mark : Mark L} (result : mark.IsResult) (overrun : Overrun horizon) :
      Seen mark (.error overrun)

/-- These marks are seen, and none is lost if all is `early`. -/
structure Shown {horizon : Int} {L : Type} (early : Prop) (marks : List (Mark L))
    (seen : List (Except (Overrun horizon) (Mark L))) : Prop where
  each : List.Forall₂ Seen marks seen
  whole : early → seen = marks.map .ok

namespace Shown

variable {horizon : Int} {L : Type} {early first second : Prop} {marks more : List (Mark L)}
  {seen seenMore : List (Except (Overrun horizon) (Mark L))}

theorem all (early : Prop) (marks : List (Mark L)) :
    Shown early marks (marks.map (Except.ok (ε := Overrun horizon))) where
  each := List.forall₂_map_right_iff.mpr (List.forall₂_same.mpr fun mark _ => .whole mark)
  whole _ := rfl

theorem append (shown : Shown first marks seen) (shownMore : Shown second more seenMore)
    (both : early → first ∧ second) : Shown early (marks ++ more) (seen ++ seenMore) where
  each := List.rel_append shown.each shownMore.each
  whole holds := by
    rw [shown.whole (both holds).1, shownMore.whole (both holds).2, List.map_append]

end Shown

/-- The result of an operation is seen if it returns, and the ledger after it in any case. -/
theorem Beside.shown {horizon : Int} {before : Cache.Site} {α L : Type}
    {ended : Except (Overrun horizon) α × Registry L} {plain : α × Registry L}
    (beside : Beside horizon before ended plain) (f : α → Mark L)
    (isResult : ∀ result, (f result).IsResult) :
    Shown (plain.2.now + before.ttl ≤ horizon) [f plain.1, .holds plain.2.ledger]
      [ended.1.map f, .ok (.holds ended.2.ledger)] := by
  rw [← beside.alike.ledger_eq]
  cases beside with
  | returned result alike kept same => exact Shown.all _ [f result, _]
  | @brokenOff result overrun _ _ alike kept time =>
    refine ⟨.cons (.lost (isResult result) overrun) (.cons (.whole _) .nil), fun early => ?_⟩
    have beyond := overrun.beyond
    rw [time] at beyond
    exact absurd early (Int.not_le.mpr beyond)

section

variable {L : Type} [Ledger L] {H : DigestFunction} {registry other : Registry L}

theorem cache_stored (registry : Registry L) (transaction : Transaction) :
    (registry.stored transaction).2.cache = registry.cache := by
  unfold stored
  split <;> rfl

theorem Deed.ttl_runWithin (horizon : Int) (idle : registry.service = none) (deed : Deed) :
    (deed.runWithin horizon H registry).cache.ttl = registry.cache.ttl := by
  cases deed with
  | happens event => exact (Event.runWithin_beside horizon H idle event).kept
  | store transaction => exact congrArg (·.ttl) (cache_stored registry transaction)

end

end Registry

end StreamLedger
