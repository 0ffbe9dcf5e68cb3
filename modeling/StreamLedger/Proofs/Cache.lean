/-
This file says what lookups and updates of a cache do when no call fails and nobody else writes.
A lookup changes which entries there are only by dropping one whose time is over, and a second
lookup changes nothing more. An update either leaves the cache as a lookup does, since the status
there is higher, or puts its record in. Every entry then goes back to such a write.
-/
import StreamLedger.Cache.Tracking
import StreamLedger.Proofs.Status

namespace StreamLedger.Cache

/-! ### The store -/

namespace Store

variable {store : Store} {now : Int} {key value : Bytes} {ttl : Nat}

theorem of_mem_others {entry : Entry} (member : entry ∈ store.others key) : entry ∈ store.entries :=
  (List.mem_filter.mp member).1

/-- A lookup brings no entry in. -/
theorem of_mem_get {entry : Entry} (member : entry ∈ (store.get now key).2.entries) :
    entry ∈ store.entries := by
  unfold get at member
  split at member
  · exact member
  · rename_i found standing
    split at member
    · rcases List.mem_cons.mp member with rfl | member
      · exact List.mem_of_find?_eq_some standing
      · exact of_mem_others member
    · exact of_mem_others member

/-- A write brings one entry in and leaves none of those that its key had. -/
theorem of_mem_write {entry : Entry} (member : entry ∈ (store.write now key value ttl).entries) :
    entry = ⟨key, value, now + ttl⟩ ∨ entry ∈ store.entries ∧ entry.key ≠ key := by
  rcases List.mem_cons.mp (List.mem_of_mem_take member) with rfl | member
  · exact Or.inl rfl
  · obtain ⟨member, different⟩ := List.mem_filter.mp member
    exact Or.inr ⟨member, bne_iff_ne.mp different⟩

@[simp]
theorem capacity_get : (store.get now key).2.capacity = store.capacity := by
  unfold get
  split
  · rfl
  · split <;> rfl

/-- What a lookup gives stands in the store, and its time is not over. -/
theorem of_get_eq_some {bytes : Bytes} (live : (store.get now key).1 = some bytes) :
    ∃ entry ∈ store.entries, entry.key = key ∧ entry.value = bytes ∧ now < entry.expiresAt := by
  unfold get at live
  split at live
  · cases live
  · rename_i entry standing
    split at live
    · rename_i before
      have same : (entry.key == key) = true := by simpa using List.find?_some standing
      exact ⟨entry, List.mem_of_find?_eq_some standing, eq_of_beq same, Option.some.inj live, before⟩
    · cases live

theorem find?_others : (store.others key).find? (fun entry => entry.key == key) = none := by
  refine List.find?_eq_none.mpr fun entry member same => ?_
  have different : (entry.key != key) = true := (List.mem_filter.mp member).2
  simp [eq_of_beq same] at different

/-- A second lookup finds what the first has found and moves nothing. -/
theorem get_get : (store.get now key).2.get now key = store.get now key := by
  unfold get
  cases standing : store.entries.find? fun entry => entry.key == key with
  | none => simp only [standing]
  | some entry =>
    have same : (entry.key == key) = true := by simpa using List.find?_some standing
    by_cases before : now < entry.expiresAt
    · have again : others { store with entries := entry :: store.others key } key =
          store.others key := by
        simp [others, eq_of_beq same]
      simp only [if_pos before, List.find?_cons, same, again]
    · simp only [if_neg before, find?_others]

/-- What was just written is there, unless it lives for no time. -/
theorem get_write (room : 0 < store.capacity) :
    ((store.write now key value ttl).get now key).1 = if 0 < ttl then some value else none := by
  obtain ⟨capacity, entries⟩ := store
  obtain ⟨room, rfl⟩ := Nat.exists_eq_succ_of_ne_zero (Nat.ne_of_gt room)
  unfold get write place
  simp only [List.take_succ_cons, List.find?_cons, beq_self_eq_true]
  by_cases lives : 0 < ttl
  · rw [if_pos (by omega), if_pos lives]
  · rw [if_neg (by omega), if_neg lives]

end Store

/-! ### Exchanges without disturbance -/

theorem Faults.take_nothing (call : Call) : Faults.nothing.take call = (.none, Faults.nothing) := by
  cases call <;> rfl

namespace Site

variable {site : Site} {now : Int}

/-- The record that is live for a transaction, if one is and can be read. -/
def peek (site : Site) (now : Int) (name : Digest) : Option StatusRecord :=
  readable (.ok (site.store.get now name.bytes).1)

/-- The site after a transaction was looked up. -/
def looked (site : Site) (now : Int) (name : Digest) : Site :=
  { site with store := (site.store.get now name.bytes).2 }

/-- The site after a record was written for a transaction that was looked up. -/
def stamped (site : Site) (now : Int) (name : Digest) (record : StatusRecord) : Site :=
  { site with
    store := (site.store.get now name.bytes).2.write now name.bytes record.encode site.ttl }

theorem perform_nothing (store : Store) (ttl : Nat) (call : Call) :
    perform ⟨store, Faults.nothing, ttl⟩ now call =
      (.ok (store.answer now call).1, ⟨(store.answer now call).2, Faults.nothing, ttl⟩) := by
  simp only [perform, performBy, Faults.take_nothing]

/-- A query that finds a readable record answers with it. -/
theorem run_query_of_peek (quiet : site.faults = Faults.nothing) {name : Digest}
    {record : StatusRecord} (found : site.peek now name = some record) (ledgerStatus : Status) :
    site.run now (query name ledgerStatus site.ttl) = (record, site.looked now name) := by
  obtain ⟨store, faults, ttl⟩ := site
  obtain rfl : faults = Faults.nothing := quiet
  simp only [peek] at found
  simp only [query, run, perform_nothing, Store.answer, found, looked]

/-- A query that finds nothing answers for the ledger, and the cache keeps the answer. -/
theorem run_query_of_none (quiet : site.faults = Faults.nothing) {name : Digest}
    (missing : (site.store.get now name.bytes).1 = none) (ledgerStatus : Status) :
    site.run now (query name ledgerStatus site.ttl) =
      (.bare ledgerStatus, site.stamped now name (.bare ledgerStatus)) := by
  obtain ⟨store, faults, ttl⟩ := site
  obtain rfl : faults = Faults.nothing := quiet
  simp only [query, run, perform_nothing, Store.answer, missing, readable, Store.setIfAbsent,
    Store.compareAndSet, Store.get_get, if_true, stamped]

/-- An update to a lower status than the cached one changes nothing. -/
theorem run_update_of_lt (quiet : site.faults = Faults.nothing) {name : Digest}
    {record current : StatusRecord} (found : site.peek now name = some current)
    (lower : record.status < current.status) :
    (site.run now (update name record site.ttl)).2 = site.looked now name := by
  obtain ⟨store, faults, ttl⟩ := site
  obtain rfl : faults = Faults.nothing := quiet
  simp only [peek] at found
  simp only [update, run, perform_nothing, Store.answer, found, if_pos lower, looked]

/-- Any other update writes its record. -/
theorem run_update_of_not_lt (quiet : site.faults = Faults.nothing) {name : Digest}
    {record : StatusRecord}
    (allowed : ∀ current, site.peek now name = some current → ¬ record.status < current.status) :
    (site.run now (update name record site.ttl)).2 = site.stamped now name record := by
  obtain ⟨store, faults, ttl⟩ := site
  obtain rfl : faults = Faults.nothing := quiet
  simp only [peek] at allowed
  simp only [update, run, perform_nothing, Store.answer]
  cases found : readable (.ok (store.get now name.bytes).1) with
  | none =>
    simp only [run, perform_nothing, Store.answer, Store.compareAndSet, Store.get_get, if_true,
      stamped]
  | some current =>
    simp only [if_neg (allowed current found), run, perform_nothing, Store.answer,
      Store.compareAndSet, Store.get_get, if_true, stamped]

@[simp]
theorem peek_looked (name : Digest) :
    (site.looked now name).peek now name = site.peek now name := by
  simp only [peek, looked, Store.get_get]

theorem readable_encode (record : StatusRecord) :
    readable (.ok (some record.encode)) = some record.kept := by
  simp only [readable, StatusRecord.decode_encode]

theorem peek_stamped (room : 0 < site.store.capacity) (name : Digest) (record : StatusRecord) :
    (site.stamped now name record).peek now name =
      if 0 < site.ttl then some record.kept else none := by
  have room : 0 < (site.store.get now name.bytes).2.capacity := by rwa [Store.capacity_get]
  simp only [peek, stamped, Store.get_write room]
  split
  · exact readable_encode record
  · rfl

end Site

end StreamLedger.Cache
