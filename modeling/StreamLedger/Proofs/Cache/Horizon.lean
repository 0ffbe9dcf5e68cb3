/-
This file says what a clock with a last time changes. A call that breaks off has looked its key up,
and no more. A call that does not is answered as by a clock without end, and so is an exchange of
which no call breaks off. Only a call breaks off that would write an entry whose time is over beyond
the horizon.
-/
import StreamLedger.Proofs.Cache.Clients

namespace StreamLedger.Cache

/-! ### Calls -/

/-- How long the entry lives that a call writes, if it may write one. -/
def Call.ttl? : Call → Option Nat
  | .get _ => none
  | .setIfAbsent _ _ ttl | .compareAndSet _ _ _ ttl => some ttl

/-- What a call has to find live under its key in order to write. -/
def Call.expects : Call → Option Bytes
  | .get _ | .setIfAbsent _ _ _ => none
  | .compareAndSet _ expected _ _ => expected

namespace Store

variable {horizon now : Int} {store : Store} {key : Bytes} {call : Call}

theorem compareAndSetWithin_eq (expected : Option Bytes) (value : Bytes) (ttl : Nat) :
    store.compareAndSetWithin horizon now key expected value ttl =
      if (store.get now key).1 = expected then
        if beyond : horizon < now + ttl then (.error ⟨now + ttl, beyond⟩, (store.get now key).2)
        else (.ok true, (store.get now key).2.write now key value ttl)
      else (.ok false, (store.get now key).2) := by
  simp only [compareAndSetWithin, Entry.within]
  by_cases beyond : horizon < now + ttl
  · simp only [dif_pos beyond]
  · simp only [dif_neg beyond, write]

/-- What may come of a call: its answer, or no more than a look at its key. -/
inductive AnsweredWithin (horizon : Int) (store : Store) (now : Int) (call : Call) :
    Except (Overrun horizon) call.Reply × Store → Prop
  | answered {reply : call.Reply} {after : Store}
      (within : ∀ ttl, call.ttl? = some ttl → (store.get now call.key).1 = call.expects →
        now + ttl ≤ horizon)
      (answer : store.answer now call = (reply, after)) :
      AnsweredWithin horizon store now call (.ok reply, after)
  | brokenOff {ttl : Nat} (writes : call.ttl? = some ttl)
      (found : (store.get now call.key).1 = call.expects) (beyond : horizon < now + ttl) :
      AnsweredWithin horizon store now call
        (.error ⟨now + ttl, beyond⟩, (store.get now call.key).2)

theorem answeredWithin (horizon : Int) (store : Store) (now : Int) (call : Call) :
    AnsweredWithin horizon store now call (store.answerWithin horizon now call) := by
  cases call with
  | get key => exact .answered nofun rfl
  | _ =>
    simp only [answerWithin, setIfAbsentWithin, compareAndSetWithin_eq]
    split
    · rename_i found
      split
      · rename_i beyond
        exact .brokenOff rfl found beyond
      · rename_i within
        refine .answered (fun ttl writes _ => ?_) (if_pos found)
        cases writes
        exact Int.not_lt.mp within
    · rename_i different
      exact .answered (fun ttl writes found => absurd found different) (if_neg different)

end Store

/-! ### Exchanges -/

theorem Call.OfQuery.ttl?_eq {name : Digest} {ledgerStatus : Status} {ttl other : Nat}
    {call : Call} (made : call.OfQuery name ledgerStatus ttl) (writes : call.ttl? = some other) :
    other = ttl := by
  cases made with
  | get => cases writes
  | seed => exact (Option.some.inj writes).symm

theorem Call.OfUpdate.ttl?_eq {name : Digest} {record : StatusRecord} {ttl other : Nat}
    {call : Call} (made : call.OfUpdate name record ttl) (writes : call.ttl? = some other) :
    other = ttl := by
  cases made with
  | get => cases writes
  | replace seen => exact (Option.some.inj writes).symm

namespace Site

variable {horizon now : Int} {site after : Site} {name : Digest} {ttl : Nat}

theorem performWithin_nothing (store : Store) (ttl : Nat) (call : Call) :
    performWithin horizon ⟨store, Faults.nothing, ttl⟩ now call =
      (.ok (store.answerWithin horizon now call).1,
        ⟨(store.answerWithin horizon now call).2, Faults.nothing, ttl⟩) := by
  simp only [performWithin, performBy, Faults.take_nothing]

theorem ttl_runWithin {α : Type} (horizon now : Int) (exchange : Exchange α) (site : Site) :
    (site.runWithin horizon now exchange).2.ttl = site.ttl := by
  induction exchange generalizing site with
  | done result => rfl
  | ask call resume inductionHypothesis =>
    have kept : (site.performWithin horizon now call).2.ttl = site.ttl := by
      simp only [performWithin, performBy]
      cases (site.faults.take call).1 <;> rfl
    rw [runWithin]
    split
    · rename_i performed
      rw [performed] at kept
      exact (inductionHypothesis _ _).trans kept
    · rename_i performed
      rw [performed] at kept
      exact (inductionHypothesis _ _).trans kept
    · rename_i performed
      rw [performed] at kept
      exact kept

/-- Where nothing disturbs a site, nothing will. -/
theorem faults_run {α : Type} (exchange : Exchange α) (quiet : site.faults = Faults.nothing) :
    (site.run now exchange).2.faults = Faults.nothing := by
  induction exchange generalizing site with
  | done result => exact quiet
  | ask call resume inductionHypothesis =>
    obtain ⟨store, faults, ttl⟩ := site
    obtain rfl : faults = Faults.nothing := quiet
    rw [run, perform_nothing]
    exact inductionHypothesis _ rfl

/-- An exchange that does not break off ends as by a clock without end. -/
theorem run_of_runWithin {α : Type} {exchange : Exchange α} {result : α}
    (quiet : site.faults = Faults.nothing)
    (ended : site.runWithin horizon now exchange = (.ok result, after)) :
    site.run now exchange = (result, after) := by
  induction exchange generalizing site with
  | done result =>
    cases ended
    rfl
  | ask call resume inductionHypothesis =>
    obtain ⟨store, faults, ttl⟩ := site
    obtain rfl : faults = Faults.nothing := quiet
    simp only [runWithin, performWithin_nothing] at ended
    simp only [run, perform_nothing]
    have answered := store.answeredWithin horizon now call
    generalize store.answerWithin horizon now call = outcome at answered ended
    cases answered with
    | answered within answer =>
      rw [answer]
      exact inductionHypothesis _ rfl ended
    | brokenOff => cases ended

/-- A call that reaches the store is answered by some store. -/
theorem exists_answerWithin {call : Call} {outcome : Except (Overrun horizon) call.Reply}
    (reached : (site.performWithin horizon now call).1 = .ok outcome) :
    ∃ store : Store, outcome = (store.answerWithin horizon now call).1 := by
  simp only [performWithin, performBy] at reached
  split at reached
  · cases reached
  · exact ⟨_, (Except.ok.inj reached).symm⟩
  · exact ⟨_, (Except.ok.inj reached).symm⟩

/-- An exchange breaks off at the end of what it has to write. -/
theorem time_of_runWithin {α : Type} {exchange : Exchange α}
    (asks : exchange.Asks fun call => ∀ other, call.ttl? = some other → other = ttl)
    {overrun : Overrun horizon}
    (broke : site.runWithin horizon now exchange = (.error overrun, after)) :
    overrun.time = now + ttl := by
  induction exchange generalizing site with
  | done result => cases broke
  | ask call resume inductionHypothesis =>
    obtain ⟨sameTtl, later⟩ := asks
    rw [runWithin] at broke
    split at broke
    · exact inductionHypothesis _ (later _) broke
    · exact inductionHypothesis _ (later _) broke
    · rename_i performed
      cases broke
      obtain ⟨store, same⟩ := exists_answerWithin (congrArg Prod.fst performed)
      have answered := store.answeredWithin horizon now call
      generalize store.answerWithin horizon now call = outcome at answered same
      cases answered with
      | answered => cases same
      | brokenOff writes =>
        cases same
        obtain rfl := sameTtl _ writes
        rfl

/-- A query that finds a readable record writes nothing and does not break off. -/
theorem runWithin_query_of_peek (quiet : site.faults = Faults.nothing) {record : StatusRecord}
    (found : site.peek now name = some record) (ledgerStatus : Status) :
    site.runWithin horizon now (query name ledgerStatus site.ttl) =
      (.ok record, site.looked now name) := by
  obtain ⟨store, faults, ttl⟩ := site
  obtain rfl : faults = Faults.nothing := quiet
  simp only [peek] at found
  simp only [query, runWithin, performWithin_nothing, Store.answerWithin, found, looked]

/-- A query that finds nothing answers for the ledger if the cache can keep the answer. -/
theorem runWithin_query_of_none (quiet : site.faults = Faults.nothing)
    (missing : (site.store.get now name.bytes).1 = none) (ledgerStatus : Status) :
    (site.runWithin horizon now (query name ledgerStatus site.ttl)).1 =
      if beyond : horizon < now + site.ttl then .error ⟨now + site.ttl, beyond⟩
      else .ok (.bare ledgerStatus) := by
  obtain ⟨store, faults, ttl⟩ := site
  obtain rfl : faults = Faults.nothing := quiet
  simp only [query, runWithin, performWithin_nothing, Store.answerWithin, missing, readable,
    Store.setIfAbsentWithin, Store.compareAndSetWithin_eq, Store.get_get, if_true]
  by_cases beyond : horizon < now + ttl
  · simp only [dif_pos beyond]
  · simp only [dif_neg beyond, runWithin]

end Site

end StreamLedger.Cache
