/-
A bounded store of values that live for a time. Entries stand in the order of their last
use, the latest first. A lookup of a live entry is a use of it, and a lookup of one whose
time is over removes it. A write of a new key into a full store drops the entry whose last
use is the longest ago, live or not. Times are milliseconds.

A clock may have a last time, its horizon. No entry can be made that would live beyond it, so
a call that has to write one breaks off: by then it has looked its key up, and it writes
nothing. Such a clock is what the names with `within` are about. The others are about a clock
without end, which makes no difference as long as no horizon is passed.
-/
import StreamLedger.Bytes

namespace StreamLedger.Cache

structure Entry where
  key : Bytes
  value : Bytes
  /-- From this time on the entry is not live. -/
  expiresAt : Int
deriving DecidableEq

/-- A time that a clock does not come to, as its last time is `horizon`. -/
structure Overrun (horizon : Int) where
  time : Int
  beyond : horizon < time
deriving DecidableEq

/-- The entry that is made `now` to live for `ttl`, if the clock comes to its end. -/
def Entry.within (horizon now : Int) (key value : Bytes) (ttl : Nat) :
    Except (Overrun horizon) Entry :=
  if beyond : horizon < now + ttl then .error ⟨now + ttl, beyond⟩
  else .ok ⟨key, value, now + ttl⟩

structure Store where
  /-- How many entries there may be; at least one. -/
  capacity : Nat
  /-- The entries, the latest used first. -/
  entries : List Entry
deriving DecidableEq

namespace Store

def empty (capacity : Nat) : Store := ⟨capacity, []⟩

/-- The number of entries, live or not. -/
def size (store : Store) : Nat := store.entries.length

/-- The entries of other keys. -/
def others (store : Store) (key : Bytes) : List Entry :=
  store.entries.filter fun entry => entry.key != key

/-- The live value under a key. -/
def get (store : Store) (now : Int) (key : Bytes) : Option Bytes × Store :=
  match store.entries.find? fun entry => entry.key == key with
  | none => (none, store)
  | some entry =>
    if now < entry.expiresAt then
      (some entry.value, { store with entries := entry :: store.others key })
    else (none, { store with entries := store.others key })

/-- Puts an entry in, in the place of any other of its key. -/
def place (store : Store) (entry : Entry) : Store :=
  { store with entries := (entry :: store.others entry.key).take store.capacity }

/-- Puts a value that lives for `ttl` under a key, whatever is there. -/
def write (store : Store) (now : Int) (key value : Bytes) (ttl : Nat) : Store :=
  store.place ⟨key, value, now + ttl⟩

/-- Writes only where the live value is `expected`, and says whether it wrote. -/
def compareAndSet (store : Store) (now : Int) (key : Bytes) (expected : Option Bytes)
    (value : Bytes) (ttl : Nat) : Bool × Store :=
  let (current, store) := store.get now key
  if current = expected then (true, store.write now key value ttl) else (false, store)

/-- Writes only where the live value is `expected`, and says whether it wrote, or that it broke
off because the clock does not come to the end of what it had to write. -/
def compareAndSetWithin (horizon : Int) (store : Store) (now : Int) (key : Bytes)
    (expected : Option Bytes) (value : Bytes) (ttl : Nat) :
    Except (Overrun horizon) Bool × Store :=
  let (current, store) := store.get now key
  if current = expected then
    match Entry.within horizon now key value ttl with
    | .ok entry => (.ok true, store.place entry)
    | .error overrun => (.error overrun, store)
  else (.ok false, store)

/-- Writes only where no value is live, and says whether it wrote. -/
def setIfAbsent (store : Store) (now : Int) (key value : Bytes) (ttl : Nat) : Bool × Store :=
  store.compareAndSet now key none value ttl

def setIfAbsentWithin (horizon : Int) (store : Store) (now : Int) (key value : Bytes)
    (ttl : Nat) : Except (Overrun horizon) Bool × Store :=
  store.compareAndSetWithin horizon now key none value ttl

/-- Writes whatever value is live, after a lookup of it. -/
def overwrite (store : Store) (now : Int) (key value : Bytes) (ttl : Nat) : Store :=
  let (current, store) := store.get now key
  (store.compareAndSet now key current value ttl).2

end Store

end StreamLedger.Cache
