/-
This file holds the bounded store against a map that drops nothing. The calls that were answered are
kept in a journal, and the map is what the journal says: under each key stands what was written
there last, to be read until its time is over. Whatever the store gives, the map gives too. The
store may give less, since a write into a full store drops an entry, but not as long as no more keys
were written than there is room for.
-/
import Mathlib.Data.Finset.Card
import StreamLedger.Proofs.Cache.Readers

namespace StreamLedger.Cache

/-! ### One entry under a key -/

namespace Store

variable {store : Store} {now later : Int} {key other value : Bytes} {ttl : Nat} {entry : Entry}

/-- No two entries have the same key. -/
def Distinct (store : Store) : Prop := (store.entries.map (·.key)).Nodup

theorem key_of_find? (standing : store.entries.find? (fun entry => entry.key == key) = some entry) :
    entry.key = key := by
  simpa using List.find?_some standing

theorem distinct_cons_others (distinct : store.Distinct) (here : entry.key = key) :
    ((entry :: store.others key).map (·.key)).Nodup := by
  rw [List.map_cons, List.nodup_cons]
  refine ⟨fun member => ?_, distinct.sublist (List.filter_sublist.map _)⟩
  obtain ⟨other, otherMember, same⟩ := List.mem_map.mp member
  exact bne_iff_ne.mp (List.mem_filter.mp otherMember).2 (same.trans here)

theorem Distinct.get (distinct : store.Distinct) : (store.get now key).2.Distinct := by
  unfold Store.get
  split
  · exact distinct
  · rename_i standing
    split
    · exact distinct_cons_others distinct (key_of_find? standing)
    · exact distinct.sublist (List.filter_sublist.map _)

theorem Distinct.put (distinct : store.Distinct) (write : Write) :
    (store.put now write).Distinct :=
  (distinct_cons_others distinct rfl).sublist ((List.take_sublist _ _).map _)

theorem Distinct.eq_of_key_eq (distinct : store.Distinct) {first second : Entry}
    (firstMember : first ∈ store.entries) (secondMember : second ∈ store.entries)
    (same : first.key = second.key) : first = second :=
  List.inj_on_of_nodup_map distinct firstMember secondMember same

theorem Distinct.find?_eq_some (distinct : store.Distinct) (member : entry ∈ store.entries) :
    store.entries.find? (fun other => other.key == entry.key) = some entry := by
  have some : (store.entries.find? fun other => other.key == entry.key).isSome :=
    List.find?_isSome.mpr ⟨entry, member, beq_self_eq_true entry.key⟩
  obtain ⟨found, standing⟩ := Option.isSome_iff_exists.mp some
  have same := key_of_find? standing
  rw [standing, distinct.eq_of_key_eq (List.mem_of_find?_eq_some standing) member same]

/-- A key can be read exactly while its entry lives. -/
theorem get_eq_some_iff (distinct : store.Distinct) :
    (store.get now key).1 = some value ↔
      ∃ entry ∈ store.entries, entry.key = key ∧ entry.value = value ∧ now < entry.expiresAt := by
  refine ⟨of_get_eq_some, ?_⟩
  rintro ⟨entry, member, rfl, rfl, before⟩
  unfold Store.get
  rw [distinct.find?_eq_some member]
  exact congrArg Prod.fst (if_pos before)

/-- A lookup drops the entry of its key if its time is over, and no other. -/
theorem mem_get_iff (distinct : store.Distinct) :
    entry ∈ (store.get now key).2.entries ↔
      entry ∈ store.entries ∧ (entry.key = key → now < entry.expiresAt) := by
  unfold Store.get
  split
  · rename_i missing
    refine ⟨fun member => ⟨member, fun here => ?_⟩, And.left⟩
    exact absurd (beq_iff_eq.mpr here) (List.find?_eq_none.mp missing entry member)
  · rename_i found standing
    have foundMember := List.mem_of_find?_eq_some standing
    have here := key_of_find? standing
    have otherwise : entry ∈ store.others key ↔ entry ∈ store.entries ∧ entry.key ≠ key := by
      rw [others, List.mem_filter, bne_iff_ne]
    split
    · rename_i before
      rw [List.mem_cons, otherwise]
      constructor
      · rintro (rfl | ⟨member, different⟩)
        · exact ⟨foundMember, fun _ => before⟩
        · exact ⟨member, fun same => absurd same different⟩
      · rintro ⟨member, _⟩
        by_cases same : entry.key = key
        · exact Or.inl (distinct.eq_of_key_eq member foundMember (same.trans here.symm))
        · exact Or.inr ⟨member, same⟩
    · rename_i ended
      rw [otherwise]
      refine and_congr_right fun member => ⟨fun different same => absurd same different, ?_⟩
      rintro lives same
      obtain rfl := distinct.eq_of_key_eq member foundMember (same.trans here.symm)
      exact ended (lives same)

theorem length_get_le : (store.get now key).2.entries.length ≤ store.entries.length := by
  unfold Store.get
  split
  · exact Nat.le_refl _
  · rename_i found standing
    have shorter : (store.others key).length < store.entries.length := by
      refine List.length_filter_lt_length_iff_exists.mpr
        ⟨found, List.mem_of_find?_eq_some standing, ?_⟩
      simpa using List.find?_some standing
    split
    · exact shorter
    · exact Nat.le_of_lt shorter

theorem length_put_le (write : Write) :
    (store.put now write).entries.length ≤ (store.put now write).capacity :=
  List.length_take_le _ _

end Store

/-! ### A map that drops nothing -/

/-- Under each key a value, with the time from which on it cannot be read. -/
abbrev TimedMap := Bytes → Option (Bytes × Int)

namespace TimedMap

def empty : TimedMap := fun _ => none

def get (map : TimedMap) (now : Int) (key : Bytes) : Option Bytes :=
  (map key).bind fun (value, expiresAt) => if now < expiresAt then some value else none

def put (map : TimedMap) (now : Int) (write : Write) : TimedMap :=
  Function.update map write.key (some (write.value, now + write.ttl))

def compareAndSet (map : TimedMap) (now : Int) (key : Bytes) (expected : Option Bytes)
    (value : Bytes) (ttl : Nat) : Bool × TimedMap :=
  if map.get now key = expected then (true, map.put now ⟨key, value, ttl⟩) else (false, map)

def answer (map : TimedMap) (now : Int) : (call : Call) → call.Reply × TimedMap
  | .get key => (map.get now key, map)
  | .setIfAbsent key value ttl => map.compareAndSet now key none value ttl
  | .compareAndSet key expected value ttl => map.compareAndSet now key expected value ttl

theorem get_eq_some_iff {map : TimedMap} {now : Int} {key value : Bytes} :
    map.get now key = some value ↔
      ∃ expiresAt, map key = some (value, expiresAt) ∧ now < expiresAt := by
  rw [get, Option.bind_eq_some_iff]
  constructor
  · rintro ⟨⟨held, expiresAt⟩, found, live⟩
    dsimp only at live
    split at live
    · rename_i before
      cases live
      exact ⟨expiresAt, found, before⟩
    · cases live
  · rintro ⟨expiresAt, found, before⟩
    exact ⟨(value, expiresAt), found, if_pos before⟩

/-- A call changes the map by what it writes, and by nothing else. -/
theorem answer_snd (map : TimedMap) (now : Int) (call : Call) :
    (map.answer now call).2 =
      match call.written (map.answer now call).1 with
      | none => map
      | some write => map.put now write := by
  cases call with
  | get key => rfl
  | setIfAbsent key value ttl =>
    simp only [answer, compareAndSet]
    split <;> rfl
  | compareAndSet key expected value ttl =>
    simp only [answer, compareAndSet]
    split <;> rfl

end TimedMap

/-! ### Journals -/

/-- A call that was answered. -/
structure Served where
  now : Int
  call : Call
  reply : call.Reply

def Served.written (served : Served) : Option Write := served.call.written served.reply

namespace Journal

variable {journal : List Served} {served : Served} {key : Bytes}

/-- What was written, and when, the first write first. -/
def writes (journal : List Served) : List (Int × Write) :=
  journal.filterMap fun served => served.written.map (served.now, ·)

/-- The last write under a key. -/
def lastWrite (journal : List Served) (key : Bytes) : Option (Int × Write) :=
  ((writes journal).filter fun entry => entry.2.key == key).getLast?

def writtenKeys (journal : List Served) : Finset Bytes :=
  ((writes journal).map (·.2.key)).toFinset

/-- The map that the last writes make. -/
def map (journal : List Served) : TimedMap := fun key =>
  (lastWrite journal key).map fun (time, write) => (write.value, time + write.ttl)

theorem writes_concat :
    writes (journal ++ [served]) =
      writes journal ++ (served.written.map (served.now, ·)).toList := by
  rw [writes, List.filterMap_append]
  cases written : served.written <;> simp [writes, written]

theorem lastWrite_concat_of_none (written : served.written = none) :
    lastWrite (journal ++ [served]) key = lastWrite journal key := by
  rw [lastWrite, writes_concat, written, Option.map_none, Option.toList_none, List.append_nil,
    lastWrite]

theorem lastWrite_concat {write : Write} (written : served.written = some write) :
    lastWrite (journal ++ [served]) key =
      if key = write.key then some (served.now, write) else lastWrite journal key := by
  rw [lastWrite, writes_concat, written, Option.map_some, Option.toList_some, List.filter_append]
  split
  · rename_i same
    rw [List.filter_cons_of_pos (by simp [same]), List.filter_nil, List.getLast?_concat]
  · rename_i different
    rw [List.filter_cons_of_neg (by simpa using Ne.symm different), List.filter_nil,
      List.append_nil, lastWrite]

theorem map_concat_of_none (written : served.written = none) :
    map (journal ++ [served]) = map journal := by
  funext key
  rw [map, lastWrite_concat_of_none written, map]

theorem map_concat {write : Write} (written : served.written = some write) :
    map (journal ++ [served]) = (map journal).put served.now write := by
  funext key
  rw [map, lastWrite_concat written, TimedMap.put, Function.update_apply]
  split
  · rfl
  · rfl

theorem writtenKeys_concat_of_none (written : served.written = none) :
    writtenKeys (journal ++ [served]) = writtenKeys journal := by
  rw [writtenKeys, writes_concat, written, Option.map_none, Option.toList_none, List.append_nil,
    writtenKeys]

theorem writtenKeys_concat {write : Write} (written : served.written = some write) :
    writtenKeys (journal ++ [served]) = insert write.key (writtenKeys journal) := by
  rw [writtenKeys, writes_concat, written, Option.map_some, Option.toList_some]
  ext key
  simp [writtenKeys]

theorem mem_writtenKeys_of_map {held : Bytes × Int} (found : map journal key = some held) :
    key ∈ writtenKeys journal := by
  obtain ⟨⟨time, write⟩, last, _⟩ := Option.map_eq_some_iff.mp found
  obtain ⟨member, same⟩ := List.mem_filter.mp (List.mem_of_getLast? last)
  rw [← beq_iff_eq.mp same]
  exact List.mem_toFinset.mpr (List.mem_map_of_mem member)

end Journal

/-! ### Courses -/

/-- What calls can be made to. -/
class Answers (S : Type) where
  answer : S → Int → (call : Call) → call.Reply × S

instance : Answers Store := ⟨Store.answer⟩

instance : Answers TimedMap := ⟨TimedMap.answer⟩

/-- What may happen next. -/
inductive Step where
  | call (call : Call)
  | advance (milliseconds : Nat)
deriving DecidableEq

/-- What calls are made to, the time, and the calls so far, the first one first. -/
structure Course (S : Type) where
  held : S
  now : Int
  journal : List Served

namespace Course

section

variable {S : Type}

def start (held : S) (now : Int) : Course S := ⟨held, now, []⟩

variable [Answers S]

def step (course : Course S) : Step → Course S
  | .call call =>
    let (reply, held) := Answers.answer course.held course.now call
    ⟨held, course.now, course.journal ++ [⟨course.now, call, reply⟩]⟩
  | .advance milliseconds => { course with now := course.now + milliseconds }

def run (course : Course S) (steps : List Step) : Course S := steps.foldl step course

theorem journal_prefix_step (course : Course S) (step : Step) :
    course.journal <+: (course.step step).journal := by
  cases step with
  | call call => exact List.prefix_append _ _
  | advance milliseconds => exact List.prefix_refl _

theorem journal_prefix_run (course : Course S) (steps : List Step) :
    course.journal <+: (course.run steps).journal := by
  induction steps generalizing course with
  | nil => exact List.prefix_refl _
  | cons step rest inductionHypothesis =>
    exact (course.journal_prefix_step step).trans (inductionHypothesis _)

end

/-! ### What the store has to do with its journal -/

/-- The store has the last writes in it, each under its key, and as long as no more keys were
written than there is room for, it has all of them that are not over. -/
structure Faithful (course : Course Store) : Prop where
  distinct : course.held.Distinct
  bounded : course.held.size ≤ course.held.capacity
  latest : ∀ entry ∈ course.held.entries,
    Journal.map course.journal entry.key = some (entry.value, entry.expiresAt)
  complete : (Journal.writtenKeys course.journal).card ≤ course.held.capacity →
    ∀ key value expiresAt, Journal.map course.journal key = some (value, expiresAt) →
      course.now < expiresAt → ⟨key, value, expiresAt⟩ ∈ course.held.entries
  past : ∀ served ∈ course.journal, served.now ≤ course.now

namespace Faithful

variable {course : Course Store}

theorem start (capacity : Nat) (now : Int) : Faithful (start (Store.empty capacity) now) where
  distinct := List.nodup_nil
  bounded := Nat.zero_le _
  latest := nofun
  complete := nofun
  past := nofun

theorem advanced (faithful : Faithful course) (milliseconds : Nat) :
    Faithful { course with now := course.now + milliseconds } where
  distinct := faithful.distinct
  bounded := faithful.bounded
  latest := faithful.latest
  complete room key value expiresAt written before :=
    faithful.complete room key value expiresAt written (by simp only at before; omega)
  past served member := by
    have past := faithful.past served member
    simp only
    omega

theorem looked (faithful : Faithful course) (key : Bytes) :
    Faithful { course with held := (course.held.get course.now key).2 } where
  distinct := faithful.distinct.get
  bounded := by
    simp only [Store.size, Store.capacity_get]
    exact Nat.le_trans Store.length_get_le faithful.bounded
  latest entry member := faithful.latest entry (Store.of_mem_get member)
  complete room other value expiresAt written before := by
    rw [Store.capacity_get] at room
    exact (Store.mem_get_iff faithful.distinct).mpr
      ⟨faithful.complete room other value expiresAt written before, fun _ => before⟩
  past := faithful.past

/-- A call that has written nothing leaves no trace in the map. -/
theorem asked (faithful : Faithful course) {served : Served} (written : served.written = none)
    (present : served.now = course.now) :
    Faithful { course with journal := course.journal ++ [served] } where
  distinct := faithful.distinct
  bounded := faithful.bounded
  latest := by
    rw [Journal.map_concat_of_none written]
    exact faithful.latest
  complete := by
    rw [Journal.map_concat_of_none written, Journal.writtenKeys_concat_of_none written]
    exact faithful.complete
  past := by
    rw [List.forall_mem_append, List.forall_mem_singleton]
    exact ⟨faithful.past, Int.le_of_eq present⟩

/-- While there is room for all keys that were written, a write drops nothing. -/
theorem entries_put (faithful : Faithful course) {write : Write}
    (room : (insert write.key (Journal.writtenKeys course.journal)).card ≤ course.held.capacity) :
    (course.held.put course.now write).entries =
      ⟨write.key, write.value, course.now + write.ttl⟩ :: course.held.others write.key := by
  refine List.take_of_length_le (Nat.le_trans ?_ room)
  have apart := Store.distinct_cons_others faithful.distinct
    (show (Entry.mk write.key write.value (course.now + write.ttl)).key = write.key from rfl)
  rw [← List.length_map (·.key), ← List.toFinset_card_of_nodup apart]
  refine Finset.card_le_card fun key member => ?_
  obtain ⟨entry, entryMember, rfl⟩ := List.mem_map.mp (List.mem_toFinset.mp member)
  rcases List.mem_cons.mp entryMember with rfl | other
  · exact Finset.mem_insert_self _ _
  · exact Finset.mem_insert_of_mem
      (Journal.mem_writtenKeys_of_map (faithful.latest entry (Store.of_mem_others other)))

theorem wrote (faithful : Faithful course) {served : Served} {write : Write}
    (written : served.written = some write) (present : served.now = course.now) :
    Faithful ⟨course.held.put course.now write, course.now, course.journal ++ [served]⟩ where
  distinct := faithful.distinct.put write
  bounded := Store.length_put_le write
  latest entry member := by
    rw [Journal.map_concat written, present, TimedMap.put, Function.update_apply]
    rcases Store.of_mem_write member with rfl | ⟨before, different⟩
    · exact if_pos rfl
    · rw [if_neg different]
      exact faithful.latest entry before
  complete room key value expiresAt last before := by
    rw [Journal.writtenKeys_concat written] at room
    rw [Journal.map_concat written, present, TimedMap.put, Function.update_apply] at last
    rw [faithful.entries_put room]
    split at last
    · rename_i same
      cases last
      rw [same]
      exact List.mem_cons_self
    · rename_i different
      have fewer := Nat.le_trans (Finset.card_le_card (Finset.subset_insert _ _)) room
      have member := faithful.complete fewer key value expiresAt last before
      exact List.mem_cons_of_mem _ (List.mem_filter.mpr ⟨member, bne_iff_ne.mpr different⟩)
  past := by
    rw [List.forall_mem_append, List.forall_mem_singleton]
    exact ⟨faithful.past, Int.le_of_eq present⟩

theorem step (faithful : Faithful course) (step : Step) : Faithful (course.step step) := by
  cases step with
  | advance milliseconds => exact faithful.advanced milliseconds
  | call call =>
    have looked := faithful.looked call.key
    have effect : (course.held.answer course.now call).2 = _ := course.held.answer_snd call
    show Faithful ⟨(course.held.answer course.now call).2, course.now,
      course.journal ++ [⟨course.now, call, (course.held.answer course.now call).1⟩]⟩
    cases written : call.written (course.held.answer course.now call).1 with
    | none =>
      rw [effect, written]
      exact looked.asked written rfl
    | some write =>
      rw [effect, written]
      exact looked.wrote written rfl

theorem run (faithful : Faithful course) (steps : List Step) : Faithful (course.run steps) := by
  induction steps generalizing course with
  | nil => exact faithful
  | cons step rest inductionHypothesis => exact inductionHypothesis (faithful.step step)

/-! ### What the store answers -/

/-- While there is room for all keys, what the store gives is what the map gives. -/
theorem get_eq (faithful : Faithful course)
    (room : (Journal.writtenKeys course.journal).card ≤ course.held.capacity) (key : Bytes) :
    (course.held.get course.now key).1 = (Journal.map course.journal).get course.now key := by
  ext value
  rw [Store.get_eq_some_iff faithful.distinct, TimedMap.get_eq_some_iff]
  constructor
  · rintro ⟨entry, member, rfl, rfl, before⟩
    exact ⟨entry.expiresAt, faithful.latest entry member, before⟩
  · rintro ⟨expiresAt, written, before⟩
    exact ⟨_, faithful.complete room key value expiresAt written before, rfl, rfl, before⟩

theorem reply_eq (faithful : Faithful course)
    (room : (Journal.writtenKeys course.journal).card ≤ course.held.capacity) (call : Call) :
    (course.held.answer course.now call).1 =
      ((Journal.map course.journal).answer course.now call).1 := by
  cases call with
  | get key => exact faithful.get_eq room key
  | setIfAbsent key value ttl =>
    simp only [Store.answer, Store.setIfAbsent, Store.compareAndSet_eq, TimedMap.answer,
      TimedMap.compareAndSet, faithful.get_eq room]
    split <;> rfl
  | compareAndSet key expected value ttl =>
    simp only [Store.answer, Store.compareAndSet_eq, TimedMap.answer, TimedMap.compareAndSet,
      faithful.get_eq room]
    split <;> rfl

end Faithful

/-! ### Beside the map -/

/-- The same course, with the map in place of the store. -/
def ideal (course : Course Store) : Course TimedMap :=
  ⟨Journal.map course.journal, course.now, course.journal⟩

variable {course : Course Store}

theorem Faithful.ideal_step (faithful : Faithful course)
    (room : (Journal.writtenKeys course.journal).card ≤ course.held.capacity) (step : Step) :
    (course.step step).ideal = course.ideal.step step := by
  cases step with
  | advance milliseconds => rfl
  | call call =>
    have effect := (Journal.map course.journal).answer_snd course.now call
    have reply := faithful.reply_eq room call
    show Course.mk (Journal.map (course.journal ++
        [⟨course.now, call, (course.held.answer course.now call).1⟩])) course.now
        (course.journal ++ [⟨course.now, call, (course.held.answer course.now call).1⟩]) =
      ⟨((Journal.map course.journal).answer course.now call).2, course.now, course.journal ++
        [⟨course.now, call, ((Journal.map course.journal).answer course.now call).1⟩]⟩
    rw [effect, reply]
    refine congrArg (Course.mk · course.now _) ?_
    cases written : call.written ((Journal.map course.journal).answer course.now call).1 with
    | none => exact Journal.map_concat_of_none written
    | some write => exact Journal.map_concat written

theorem capacity_step (course : Course Store) (step : Step) :
    (course.step step).held.capacity = course.held.capacity := by
  cases step with
  | advance milliseconds => rfl
  | call call => exact Store.capacity_answer call

theorem capacity_run (course : Course Store) (steps : List Step) :
    (course.run steps).held.capacity = course.held.capacity := by
  induction steps generalizing course with
  | nil => rfl
  | cons step rest inductionHypothesis =>
    exact (inductionHypothesis (course.step step)).trans (course.capacity_step step)

end Course

end StreamLedger.Cache
