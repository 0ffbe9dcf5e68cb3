/-
What a client of the store does: it makes calls one at a time, and what it does next hangs
on the reply. Between two calls of a client the store may change, by time or by other
clients, so an exchange is kept apart from the store that answers it. Each call is atomic,
and it may fail without effect.
-/
import StreamLedger.Cache.Store

namespace StreamLedger.Cache

/-- The store could not be reached. -/
structure Unavailable where
  reason : String
deriving DecidableEq

def Unavailable.message (error : Unavailable) : String :=
  "status store unavailable: " ++ error.reason

inductive Call where
  | get (key : Bytes)
  | setIfAbsent (key value : Bytes) (ttl : Nat)
  | compareAndSet (key : Bytes) (expected : Option Bytes) (value : Bytes) (ttl : Nat)
deriving DecidableEq

/-- What the store replies to a call. -/
abbrev Call.Reply : Call → Type
  | .get _ => Option Bytes
  | .setIfAbsent _ _ _ | .compareAndSet _ _ _ _ => Bool

/-- The key a call is about. -/
def Call.key : Call → Bytes
  | .get key | .setIfAbsent key _ _ | .compareAndSet key _ _ _ => key

/-- The store's reply to a call, and the store after it. -/
def Store.answer (store : Store) (now : Int) : (call : Call) → call.Reply × Store
  | .get key => store.get now key
  | .setIfAbsent key value ttl => store.setIfAbsent now key value ttl
  | .compareAndSet key expected value ttl => store.compareAndSet now key expected value ttl

/-- The store's reply to a call, or that the call broke off, and the store after it. -/
def Store.answerWithin (horizon : Int) (store : Store) (now : Int) :
    (call : Call) → Except (Overrun horizon) call.Reply × Store
  | .get key =>
    let (value, store) := store.get now key
    (.ok value, store)
  | .setIfAbsent key value ttl => store.setIfAbsentWithin horizon now key value ttl
  | .compareAndSet key expected value ttl =>
    store.compareAndSetWithin horizon now key expected value ttl

/-- A client's work that ends with an `α`. -/
inductive Exchange (α : Type) where
  | done (result : α)
  | ask (call : Call) (resume : Except Unavailable call.Reply → Exchange α)

/-- What may happen at a call besides the call itself. -/
inductive Fault where
  | none
  /-- The call fails. -/
  | unavailable (reason : String)
  /-- Another client writes these bytes under the call's key just before the call. -/
  | intrusion (value : Bytes)
deriving DecidableEq

/-- The faults that wait for the next calls of each kind, the next one first. -/
structure Faults where
  get : List Fault
  setIfAbsent : List Fault
  compareAndSet : List Fault
deriving DecidableEq

namespace Faults

def nothing : Faults := ⟨[], [], []⟩

/-- The first fault of a queue, or none if the queue is empty. -/
def next (queue : List Fault) : Fault := queue.head?.getD .none

/-- The fault for a call, and what waits after it. -/
def take (faults : Faults) : Call → Fault × Faults
  | .get _ => (next faults.get, { faults with get := faults.get.tail })
  | .setIfAbsent _ _ _ =>
    (next faults.setIfAbsent, { faults with setIfAbsent := faults.setIfAbsent.tail })
  | .compareAndSet _ _ _ _ =>
    (next faults.compareAndSet, { faults with compareAndSet := faults.compareAndSet.tail })

end Faults

/-- A store with the faults that are to come. -/
structure Site where
  store : Store
  faults : Faults
  /-- How long what is written here lives. -/
  ttl : Nat
deriving DecidableEq

namespace Site

def empty (capacity ttl : Nat) : Site := ⟨Store.empty capacity, Faults.nothing, ttl⟩

/-- Makes one call, after what the next fault does. What comes of a call that reaches the store
is said by `answer`, also of the call by which another client writes. -/
def performBy {Reply : Call → Type} (answer : Store → (call : Call) → Reply call × Store)
    (site : Site) (now : Int) (call : Call) : Except Unavailable (Reply call) × Site :=
  let (fault, faults) := site.faults.take call
  match fault with
  | .unavailable reason => (.error ⟨reason⟩, { site with faults })
  | .intrusion value =>
    let (current, store) := site.store.get now call.key
    let (_, store) := answer store (.compareAndSet call.key current value site.ttl)
    let (reply, store) := answer store call
    (.ok reply, { site with store, faults })
  | .none =>
    let (reply, store) := answer site.store call
    (.ok reply, { site with store, faults })

/-- Makes one call. -/
def perform (site : Site) (now : Int) (call : Call) : Except Unavailable call.Reply × Site :=
  site.performBy (fun store => store.answer now) now call

/-- Makes one call, which may break off. -/
def performWithin (horizon : Int) (site : Site) (now : Int) (call : Call) :
    Except Unavailable (Except (Overrun horizon) call.Reply) × Site :=
  site.performBy (fun store => store.answerWithin horizon now) now call

/-- Runs an exchange to its end, with no other client between its calls but for the faults. -/
def run {α : Type} (now : Int) : Exchange α → Site → α × Site
  | .done result, site => (result, site)
  | .ask call resume, site =>
    let (reply, site) := site.perform now call
    run now (resume reply) site

/-- Runs an exchange to its end, or until a call of it breaks off. -/
def runWithin {α : Type} (horizon now : Int) :
    Exchange α → Site → Except (Overrun horizon) α × Site
  | .done result, site => (.ok result, site)
  | .ask call resume, site =>
    match site.performWithin horizon now call with
    | (.error error, site) => runWithin horizon now (resume (.error error)) site
    | (.ok (.ok reply), site) => runWithin horizon now (resume (.ok reply)) site
    | (.ok (.error overrun), site) => (.error overrun, site)

end Site

end StreamLedger.Cache
