/-
This file says how long a bounded store keeps an entry. An entry that was just written or found
stands first, and what comes before it later are entries of keys that were used since, one for each.
So the end of the list, where a full store drops its entries, does not reach it before as many other
keys were used as there is room for. Until then it can be read while it lives, unless its key is
written again.
-/
import StreamLedger.Proofs.Cache.Unbounded

namespace StreamLedger.Cache

/-! ### What stands before an entry -/

/-- The entry stands in a list, and before it only entries of certain keys. -/
def Entry.Behind (used : Finset Bytes) (entry : Entry) (entries : List Entry) : Prop :=
  ∃ before after, entries = before ++ entry :: after ∧ ∀ other ∈ before, other.key ∈ used

namespace Entry.Behind

variable {entry : Entry} {entries : List Entry} {used : Finset Bytes}

theorem front (entry : Entry) (entries : List Entry) : Behind ∅ entry (entry :: entries) :=
  ⟨[], entries, rfl, nofun⟩

theorem mem (behind : Behind used entry entries) : entry ∈ entries := by
  obtain ⟨before, after, rfl, _⟩ := behind
  exact List.mem_append_right _ List.mem_cons_self

theorem mono (behind : Behind used entry entries) {more : Finset Bytes} (subset : used ⊆ more) :
    Behind more entry entries := by
  obtain ⟨before, after, whole, keys⟩ := behind
  exact ⟨before, after, whole, fun other member => subset (keys other member)⟩

theorem cons (behind : Behind used entry entries) (first : Entry) :
    Behind (insert first.key used) entry (first :: entries) := by
  obtain ⟨before, after, rfl, keys⟩ := behind
  refine ⟨first :: before, after, rfl, List.forall_mem_cons.mpr ⟨?_, fun other member => ?_⟩⟩
  · exact Finset.mem_insert_self _ _
  · exact Finset.mem_insert_of_mem (keys other member)

/-- Other entries can be taken out. -/
theorem filter (behind : Behind used entry entries) {kept : Entry → Bool}
    (stays : kept entry = true) : Behind used entry (entries.filter kept) := by
  obtain ⟨before, after, rfl, keys⟩ := behind
  refine ⟨before.filter kept, after.filter kept, ?_, fun other member => ?_⟩
  · rw [List.filter_append, List.filter_cons_of_pos stays]
  · exact keys other (List.mem_of_mem_filter member)

/-- An entry is not dropped if there is room for one key more than those of the entries before. -/
theorem take (behind : Behind used entry entries) (distinct : (entries.map (·.key)).Nodup)
    {room : Nat} (few : (used.erase entry.key).card < room) :
    Behind used entry (entries.take room) := by
  obtain ⟨before, after, rfl, keys⟩ := behind
  rw [List.map_append, List.map_cons, List.nodup_append] at distinct
  have short : before.length < room := by
    refine Nat.lt_of_le_of_lt ?_ few
    rw [← List.length_map (·.key), ← List.toFinset_card_of_nodup distinct.1]
    refine Finset.card_le_card fun key member => ?_
    have standing := List.mem_toFinset.mp member
    obtain ⟨other, otherMember, here⟩ := List.mem_map.mp standing
    refine Finset.mem_erase.mpr ⟨?_, here ▸ keys other otherMember⟩
    exact distinct.2.2 key standing entry.key List.mem_cons_self
  obtain ⟨rest, enough⟩ := Nat.exists_eq_add_of_lt short
  refine ⟨before, after.take rest, ?_, keys⟩
  rw [enough, Nat.add_assoc, List.take_length_add_append, List.take_succ_cons]

end Entry.Behind

namespace Store

variable {store : Store} {now : Int} {key : Bytes} {entry : Entry} {used : Finset Bytes}

/-- A lookup brings at most its own key before an entry that lives. -/
theorem behind_get (behind : entry.Behind used store.entries) (distinct : store.Distinct)
    (lives : now < entry.expiresAt) (key : Bytes) :
    entry.Behind (insert key used) (store.get now key).2.entries := by
  by_cases same : entry.key = key
  · subst same
    simp only [Store.get, distinct.find?_eq_some behind.mem, if_pos lives]
    exact (Entry.Behind.front entry _).mono (Finset.empty_subset _)
  · have rest : entry.Behind used (store.others key) := behind.filter (bne_iff_ne.mpr same)
    unfold Store.get
    split
    · exact behind.mono (Finset.subset_insert _ _)
    · rename_i found standing
      split
      · rw [← key_of_find? standing] at rest ⊢
        exact rest.cons found
      · exact rest.mono (Finset.subset_insert _ _)

/-- A write under another key drops the entry only if there is no room for so many keys. -/
theorem behind_put (behind : entry.Behind used store.entries) (distinct : store.Distinct)
    {write : Write} (different : write.key ≠ entry.key)
    (few : ((insert write.key used).erase entry.key).card < store.capacity) :
    entry.Behind (insert write.key used) (store.put now write).entries := by
  have rest : entry.Behind used (store.others write.key) :=
    behind.filter (bne_iff_ne.mpr different.symm)
  exact (rest.cons ⟨write.key, write.value, now + write.ttl⟩).take
    (distinct_cons_others distinct rfl) few

theorem behind_answer (behind : entry.Behind used store.entries) (distinct : store.Distinct)
    (lives : now < entry.expiresAt) {call : Call}
    (spared : ∀ write, call.written (store.answer now call).1 = some write →
      write.key ≠ entry.key)
    (few : ((insert call.key used).erase entry.key).card < store.capacity) :
    entry.Behind (insert call.key used) (store.answer now call).2.entries := by
  have looked := behind_get behind distinct lives call.key
  rw [answer_snd]
  cases written : call.written (store.answer now call).1 with
  | none => exact looked
  | some write =>
    have same := key_of_written written
    have once : insert write.key (insert call.key used) = insert call.key used := by
      rw [same, Finset.insert_idem]
    rw [← once] at few ⊢
    exact behind_put looked distinct.get (spared write written) (by rwa [capacity_get])

/-- A value that was found comes to the front. -/
theorem exists_front_get {value : Bytes} (found : (store.get now key).1 = some value) :
    ∃ expiresAt rest, (store.get now key).2.entries = ⟨key, value, expiresAt⟩ :: rest := by
  unfold Store.get at found ⊢
  split at found
  · cases found
  · rename_i entry standing
    obtain rfl := key_of_find? standing
    split at found
    · rename_i lives
      cases found
      rw [if_pos lives]
      exact ⟨entry.expiresAt, _, rfl⟩
    · cases found

/-- A value that was written comes to the front. -/
theorem exists_front_put (room : 0 < store.capacity) (write : Write) :
    ∃ expiresAt rest,
      (store.put now write).entries = ⟨write.key, write.value, expiresAt⟩ :: rest := by
  obtain ⟨more, room⟩ := Nat.exists_eq_add_of_lt room
  refine ⟨now + write.ttl, (store.others write.key).take (0 + more), ?_⟩
  show List.take store.capacity _ = _
  rw [room, List.take_succ_cons]

end Store

namespace Journal

/-- None of the calls has written under a key. -/
def Spares (key : Bytes) (calls : List Served) : Prop :=
  ∀ served ∈ calls, ∀ write, served.written = some write → write.key ≠ key

/-- What was written last under a key is still that after other calls. -/
theorem Spares.map_append {key : Bytes} {calls : List Served} (spares : Spares key calls)
    (journal : List Served) : map (journal ++ calls) key = map journal key := by
  have others : (writes calls).filter (fun entry => entry.2.key == key) = [] := by
    refine List.filter_eq_nil_iff.mpr fun entry member same => ?_
    obtain ⟨served, servedMember, wrote⟩ := List.mem_filterMap.mp member
    obtain ⟨write, written, rfl⟩ := Option.map_eq_some_iff.mp wrote
    exact spares served servedMember write written (beq_iff_eq.mp same)
  have whole : writes (journal ++ calls) = writes journal ++ writes calls := List.filterMap_append
  rw [map, map, lastWrite, lastWrite, whole, List.filter_append, others, List.append_nil]

end Journal

namespace Course

/-! ### From one call on -/

/-- The key that a step uses, if it is a call. -/
def Step.key? : Step → Option Bytes
  | .call call => some call.key
  | .advance _ => none

/-- The keys that the calls among some steps use. -/
def usedKeys (steps : List Step) : Finset Bytes := (steps.filterMap Step.key?).toFinset

theorem usedKeys_cons (call : Call) (rest : List Step) :
    usedKeys (.call call :: rest) = insert call.key (usedKeys rest) := List.toFinset_cons

/-- A call has written a value under its key or, if it has written nothing, has found it there. -/
def Touches (course : Course Store) (call : Call) (value : Bytes) : Prop :=
  match call.written (course.held.answer course.now call).1 with
  | some write => write.value = value
  | none => (course.held.get course.now call.key).1 = some value

/-- The calls that a course makes after another of which it is the rest. -/
def callsSince (course later : Course Store) : List Served :=
  later.journal.drop course.journal.length

variable {course : Course Store} {entry : Entry} {used : Finset Bytes}

theorem now_le_run (course : Course Store) (steps : List Step) :
    course.now ≤ (course.run steps).now := by
  induction steps generalizing course with
  | nil => exact Int.le_refl _
  | cons step rest inductionHypothesis =>
    refine Int.le_trans ?_ (inductionHypothesis (course.step step))
    cases step with
    | call call => exact Int.le_refl _
    | advance milliseconds => exact Int.le_add_of_nonneg_right (Int.natCast_nonneg milliseconds)

theorem journal_run_eq (course : Course Store) (steps : List Step) :
    (course.run steps).journal = course.journal ++ course.callsSince (course.run steps) := by
  obtain ⟨more, whole⟩ := course.journal_prefix_run steps
  rw [callsSince, ← whole, List.drop_left]

/-- The calls of a run are the first one and those that follow it. -/
theorem callsSince_cons (course : Course Store) (call : Call) (rest : List Step) :
    course.callsSince (course.run (.call call :: rest)) =
      ⟨course.now, call, (course.held.answer course.now call).1⟩ ::
        (course.step (.call call)).callsSince ((course.step (.call call)).run rest) := by
  have whole := (course.step (.call call)).journal_run_eq rest
  rw [callsSince]
  show ((course.step (.call call)).run rest).journal.drop course.journal.length = _
  rw [whole]
  show ((course.journal ++ [_]) ++ _).drop course.journal.length = _
  rw [List.append_assoc, List.drop_left]
  rfl

/-- An entry stays while it lives, is not written again and there is room for the keys used. -/
theorem Faithful.mem_run (faithful : Faithful course)
    (behind : entry.Behind used course.held.entries) {steps : List Step}
    (lives : (course.run steps).now < entry.expiresAt)
    (spares : Journal.Spares entry.key (course.callsSince (course.run steps)))
    (few : ((used ∪ usedKeys steps).erase entry.key).card < course.held.capacity) :
    entry ∈ (course.run steps).held.entries := by
  -- the keys used so far grow, and those used so far and later together stay the same
  induction steps generalizing course used with
  | nil => exact behind.mem
  | cons step rest inductionHypothesis =>
    cases step with
    | advance milliseconds =>
      exact inductionHypothesis (faithful.advanced milliseconds) behind lives spares few
    | call call =>
      have livesNow := Int.lt_of_le_of_lt (course.now_le_run (.call call :: rest)) lives
      rw [usedKeys_cons, Finset.union_insert, ← Finset.insert_union] at few
      rw [callsSince_cons] at spares
      obtain ⟨sparesNow, sparesLater⟩ := List.forall_mem_cons.mp spares
      have fewNow := Nat.lt_of_le_of_lt
        (Finset.card_le_card (Finset.erase_subset_erase _ Finset.subset_union_left)) few
      have behindNow := Store.behind_answer behind faithful.distinct livesNow sparesNow fewNow
      refine inductionHypothesis (faithful.step (.call call)) behindNow lives sparesLater ?_
      rw [capacity_step]
      exact few

/-- While the last write under a key stands in the store, the key can be read for as long as it was
written to live. -/
theorem Faithful.get_eq_of_written (faithful : Faithful course) {key value : Bytes}
    {expiresAt : Int} (written : Journal.map course.journal key = some (value, expiresAt))
    (stays : course.now < expiresAt → ⟨key, value, expiresAt⟩ ∈ course.held.entries) :
    (course.held.get course.now key).1 = if course.now < expiresAt then some value else none := by
  split
  · rename_i lives
    exact (Store.get_eq_some_iff faithful.distinct).mpr ⟨_, stays lives, rfl, rfl, lives⟩
  · rename_i ended
    refine Option.eq_none_iff_forall_ne_some.mpr fun other found => ?_
    obtain ⟨entry, member, here, _, lives⟩ := Store.of_get_eq_some found
    have latest := faithful.latest entry member
    rw [here, written] at latest
    obtain ⟨_, rfl⟩ := Prod.mk.inj (Option.some.inj latest)
    exact ended lives

/-- What a call has written or found stands first after it. -/
theorem Touches.exists_front {call : Call} {value : Bytes} (touches : course.Touches call value)
    (room : 0 < course.held.capacity) :
    ∃ expiresAt rest,
      (course.step (.call call)).held.entries = ⟨call.key, value, expiresAt⟩ :: rest := by
  have effect : (course.step (.call call)).held = _ := course.held.answer_snd call
  unfold Touches at touches
  rw [effect]
  cases written : call.written (course.held.answer course.now call).1 with
  | none =>
    rw [written] at touches
    exact Store.exists_front_get touches
  | some write =>
    rw [written] at touches
    have same := Store.key_of_written written
    subst touches
    rw [← same]
    exact Store.exists_front_put (by rwa [Store.capacity_get]) write

/-- What a call has just written under its key or found there can be read until its time is over,
as long as the key is not written again and fewer other keys are used than the store has room
for. -/
theorem get_eq_of_touches (capacity : Nat) (room : 0 < capacity) (now : Int)
    (past future : List Step) (call : Call) (value : Bytes) :
    let before := (start (Store.empty capacity) now).run past
    let touched := before.step (.call call)
    let final := touched.run future
    before.Touches call value → Journal.Spares call.key (touched.callsSince final) →
    ((usedKeys future).erase call.key).card < capacity →
    ∃ expiresAt, Journal.map touched.journal call.key = some (value, expiresAt) ∧
      (final.held.get final.now call.key).1 =
        if final.now < expiresAt then some value else none := by
  intro before touched final touches spares few
  have faithful : Faithful before := (Faithful.start capacity now).run past
  have faithfulTouched : Faithful touched := faithful.step (.call call)
  have same : before.held.capacity = capacity := capacity_run _ past
  obtain ⟨expiresAt, rest, front⟩ := touches.exists_front (by rwa [same])
  have written : Journal.map touched.journal call.key = some (value, expiresAt) :=
    faithfulTouched.latest _ (by rw [front]; exact List.mem_cons_self)
  have behind : Entry.Behind ∅ ⟨call.key, value, expiresAt⟩ touched.held.entries := by
    rw [front]
    exact Entry.Behind.front _ rest
  refine ⟨expiresAt, written, (faithfulTouched.run future).get_eq_of_written ?_ fun lives => ?_⟩
  · rw [journal_run_eq, spares.map_append, written]
  · refine faithfulTouched.mem_run behind lives spares ?_
    rw [capacity_step, same, Finset.empty_union]
    exact few

/-- A store for two keys. A lookup of the first key keeps it, and the other one is dropped for a
third. -/
theorem get_eq_of_touches_twoKeys :
    let past : List Step := [
      .call (.setIfAbsent [1] [10] 9), .call (.compareAndSet [2] none [20] 9)]
    let future : List Step := [
      .advance 5, .call (.setIfAbsent [1] [11] 9), .call (.setIfAbsent [3] [30] 9)]
    let touched := ((start (Store.empty 2) 0).run past).step (.call (.get [1]))
    let final := touched.run future
    (final.held.get final.now [1]).1 = some [10] ∧ (final.held.get final.now [2]).1 = none := by
  intro past future touched final
  have spares : Journal.Spares [1] (touched.callsSince final) := by
    unfold Journal.Spares
    decide
  obtain ⟨expiresAt, written, found⟩ :=
    get_eq_of_touches 2 (by decide) 0 past future (.get [1]) [10] rfl spares (by decide)
  refine ⟨?_, rfl⟩
  cases written
  exact found

end Course

end StreamLedger.Cache
