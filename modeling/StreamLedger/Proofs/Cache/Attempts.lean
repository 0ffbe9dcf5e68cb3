/-
This file holds the bounded store against a map that drops nothing, by a clock with a last time. A
call may then break off, and the next one goes on with what is there. Each attempt at a call amounts
to a call that is answered by a clock without end: one that broke off has looked its key up, and no
more. So the store stays faithful to what was written, and as long as no more keys were written than
there is room for, it answers, and breaks off, exactly where the map does.
-/
import StreamLedger.Proofs.Cache.Horizon
import StreamLedger.Proofs.Cache.Unbounded

namespace StreamLedger.Cache

/-! ### Calls that may break off -/

/-- A map breaks off where it has to hold something beyond the horizon. -/
def TimedMap.answerWithin (horizon : Int) (map : TimedMap) (now : Int) (call : Call) :
    Except (Overrun horizon) call.Reply × TimedMap :=
  match call.ttl? with
  | none => (.ok (map.answer now call).1, (map.answer now call).2)
  | some ttl =>
    if breaks : map.get now call.key = call.expects ∧ horizon < now + ttl then
      (.error ⟨now + ttl, breaks.2⟩, map)
    else (.ok (map.answer now call).1, (map.answer now call).2)

theorem TimedMap.answerWithin_of_within {horizon : Int} {map : TimedMap} {now : Int} {call : Call}
    (within : ∀ ttl, call.ttl? = some ttl → map.get now call.key = call.expects →
      now + ttl ≤ horizon) :
    map.answerWithin horizon now call = (.ok (map.answer now call).1, (map.answer now call).2) := by
  unfold answerWithin
  split
  · rfl
  · rename_i ttl writes
    exact dif_neg fun breaks => Int.not_lt.mpr (within ttl writes breaks.1) breaks.2

theorem TimedMap.answerWithin_of_beyond {horizon : Int} {map : TimedMap} {now : Int} {call : Call}
    {ttl : Nat} (writes : call.ttl? = some ttl) (found : map.get now call.key = call.expects)
    (beyond : horizon < now + ttl) :
    map.answerWithin horizon now call = (.error ⟨now + ttl, beyond⟩, map) := by
  unfold answerWithin
  split
  · rename_i nothing
    cases nothing.symm.trans writes
  · rename_i other same
    obtain rfl := Option.some.inj (same.symm.trans writes)
    exact dif_pos ⟨found, beyond⟩

/-- What calls can be made to that may break off. -/
class AnswersWithin (horizon : Int) (S : Type) where
  answer : S → Int → (call : Call) → Except (Overrun horizon) call.Reply × S

instance (horizon : Int) : AnswersWithin horizon Store := ⟨Store.answerWithin horizon⟩

instance (horizon : Int) : AnswersWithin horizon TimedMap := ⟨TimedMap.answerWithin horizon⟩

/-- A call that was made, and what came of it: its answer, or that it broke off. -/
structure Attempt (horizon : Int) where
  now : Int
  call : Call
  outcome : Except (Overrun horizon) call.Reply

/-- The answered call that an attempt amounts to. If the call broke off, it has found what it
expects. -/
def Attempt.served {horizon : Int} : Attempt horizon → Served
  | ⟨now, call, .ok reply⟩ => ⟨now, call, reply⟩
  | ⟨now, call, .error _⟩ => ⟨now, .get call.key, call.expects⟩

/-- What an attempt has put in: nothing if it broke off. -/
def Attempt.written {horizon : Int} (attempt : Attempt horizon) : Option Write :=
  attempt.served.written

/-- What calls are made to, the time, and the attempts so far, the first one first. -/
structure CourseWithin (horizon : Int) (S : Type) where
  held : S
  now : Int
  attempts : List (Attempt horizon)

namespace CourseWithin

section

variable {horizon : Int} {S : Type}

def start (horizon : Int) (held : S) (now : Int) : CourseWithin horizon S := ⟨held, now, []⟩

/-- The calls that the attempts amount to. -/
def journal (course : CourseWithin horizon S) : List Served := course.attempts.map Attempt.served

/-- The course by a clock without end that this one amounts to. -/
def plain (course : CourseWithin horizon S) : Course S := ⟨course.held, course.now, course.journal⟩

variable [AnswersWithin horizon S]

def step (course : CourseWithin horizon S) : Step → CourseWithin horizon S
  | .call call =>
    let (outcome, held) := AnswersWithin.answer course.held course.now call
    ⟨held, course.now, course.attempts ++ [⟨course.now, call, outcome⟩]⟩
  | .advance milliseconds => { course with now := course.now + milliseconds }

def run (course : CourseWithin horizon S) (steps : List Step) : CourseWithin horizon S :=
  steps.foldl step course

end

section

variable {horizon : Int} {course : CourseWithin horizon Store}

/-- The attempt that the next call is. -/
def next (course : CourseWithin horizon Store) (call : Call) : Attempt horizon :=
  ⟨course.now, call, (course.held.answerWithin horizon course.now call).1⟩

theorem journal_step_call (course : CourseWithin horizon Store) (call : Call) :
    (course.step (.call call)).journal = course.journal ++ [(course.next call).served] :=
  List.map_append

/-- Whether it breaks off or not, a call amounts to one by a clock without end. -/
theorem exists_plain_step (course : CourseWithin horizon Store) (step : Step) :
    ∃ other, (course.step step).plain = course.plain.step other := by
  cases step with
  | advance milliseconds => exact ⟨.advance milliseconds, rfl⟩
  | call call =>
    have answered := course.held.answeredWithin horizon course.now call
    show ∃ other, Course.mk (course.held.answerWithin horizon course.now call).2 course.now
      (course.step (.call call)).journal = course.plain.step other
    rw [journal_step_call, next]
    generalize course.held.answerWithin horizon course.now call = outcome at answered
    cases answered with
    | answered within answer =>
      obtain ⟨rfl, rfl⟩ := Prod.mk.inj answer
      exact ⟨.call call, rfl⟩
    | brokenOff writes found beyond =>
      refine ⟨.call (.get call.key), ?_⟩
      simp only [Attempt.served, ← found]
      rfl

theorem capacity_run (course : CourseWithin horizon Store) (steps : List Step) :
    (course.run steps).held.capacity = course.held.capacity := by
  induction steps generalizing course with
  | nil => rfl
  | cons step rest inductionHypothesis =>
    obtain ⟨other, same⟩ := course.exists_plain_step step
    refine (inductionHypothesis (course.step step)).trans ?_
    have kept := congrArg (·.held.capacity) same
    exact kept.trans (course.plain.capacity_step other)

theorem journal_prefix_run (course : CourseWithin horizon Store) (steps : List Step) :
    course.journal <+: (course.run steps).journal := by
  induction steps generalizing course with
  | nil => exact List.prefix_refl _
  | cons step rest inductionHypothesis =>
    obtain ⟨other, same⟩ := course.exists_plain_step step
    have begins := course.plain.journal_prefix_step other
    rw [← same] at begins
    exact begins.trans (inductionHypothesis (course.step step))

/-- The same course, with the map in place of the store. -/
def ideal (course : CourseWithin horizon Store) : CourseWithin horizon TimedMap :=
  ⟨Journal.map course.journal, course.now, course.attempts⟩

/-- While there is room for all keys, the map answers, or breaks off, as the store does, and holds
what was written last. -/
theorem answerWithin_map (faithful : course.plain.Faithful)
    (room : (Journal.writtenKeys course.journal).card ≤ course.held.capacity) (call : Call) :
    (Journal.map course.journal).answerWithin horizon course.now call =
      ((course.next call).outcome, Journal.map (course.journal ++ [(course.next call).served])) := by
  have same : (course.held.get course.now call.key).1 =
      (Journal.map course.journal).get course.now call.key := faithful.get_eq room call.key
  have answered := course.held.answeredWithin horizon course.now call
  simp only [next]
  generalize course.held.answerWithin horizon course.now call = outcome at answered
  cases answered with
  | answered within answer =>
    obtain ⟨rfl, rfl⟩ := Prod.mk.inj answer
    rw [same] at within
    rw [TimedMap.answerWithin_of_within within]
    have held := congrArg Course.held (faithful.ideal_step room (.call call))
    exact Prod.ext (congrArg Except.ok (faithful.reply_eq room call).symm) held.symm
  | brokenOff writes found beyond =>
    rw [same] at found
    rw [TimedMap.answerWithin_of_beyond writes found beyond]
    exact Prod.ext rfl (Journal.map_concat_of_none rfl).symm

theorem ideal_step (faithful : course.plain.Faithful)
    (room : (Journal.writtenKeys course.journal).card ≤ course.held.capacity) (step : Step) :
    (course.step step).ideal = course.ideal.step step := by
  cases step with
  | advance milliseconds => rfl
  | call call =>
    have answered := answerWithin_map faithful room call
    show CourseWithin.mk (Journal.map (course.step (.call call)).journal) course.now
        (course.attempts ++ [course.next call]) =
      ⟨((Journal.map course.journal).answerWithin horizon course.now call).2, course.now,
        course.attempts ++ [⟨course.now, call,
          ((Journal.map course.journal).answerWithin horizon course.now call).1⟩]⟩
    rw [journal_step_call, answered]
    rfl

end

end CourseWithin

end StreamLedger.Cache
