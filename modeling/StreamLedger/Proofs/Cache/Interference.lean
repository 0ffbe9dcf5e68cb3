/-
This file is about one query whose calls are disturbed in any way. Before each of them others may
have done anything to the store, time may have passed, and the call may fail without effect. The
query takes one of four courses, and each of them ends with a record. A record that is found at once
is the answer. Else the answer is what the ledger says, or a record that is not behind it and that
came in between. All that a query ever writes is what the ledger says, once and where nothing is
live.
-/
import StreamLedger.Proofs.Cache.Clients
import StreamLedger.Registry

namespace StreamLedger

namespace Cache

/-! ### Exchanges amid others -/

/-- What a call meets: others have changed the store, it is `now`, and the call may fail. -/
structure Turn where
  others : Store → Store
  now : Int
  failure : Option Unavailable

/-- A call as it was made. -/
structure Encounter where
  call : Call
  store : Store
  now : Int
  failure : Option Unavailable

namespace Encounter

def reply (encounter : Encounter) : Except Unavailable encounter.call.Reply :=
  match encounter.failure with
  | some error => .error error
  | none => .ok (encounter.store.answer encounter.now encounter.call).1

/-- The store after the call. -/
def after (encounter : Encounter) : Store :=
  match encounter.failure with
  | some _ => encounter.store
  | none => (encounter.store.answer encounter.now encounter.call).2

/-- What the call has put into the store. -/
def written (encounter : Encounter) : Option Write :=
  match encounter.reply with
  | .error _ => none
  | .ok reply => encounter.call.written reply

/-- The record that the call has found, if it looked for one. -/
def found : Encounter → Option StatusRecord
  | ⟨.get key, store, now, failure⟩ => readable (reply ⟨.get key, store, now, failure⟩)
  | _ => none

end Encounter

/-- What became of an exchange. -/
structure Passage (α : Type) where
  result : α
  encounters : List Encounter
  store : Store

def Passage.written {α : Type} (passage : Passage α) : List Write :=
  passage.encounters.filterMap Encounter.written

/-- The next call of an exchange that has left the store as it is. -/
def Turn.meet (turn : Turn) (store : Store) (call : Call) : Encounter :=
  ⟨call, turn.others store, turn.now, turn.failure⟩

/-- Runs an exchange to its end, where its calls meet the given turns, one each. -/
def Exchange.amid {α : Type} : (turns : Nat → Turn) → Exchange α → Store → Passage α
  | _, .done result, store => ⟨result, [], store⟩
  | turns, .ask call resume, store =>
    let encounter := (turns 0).meet store call
    let passage := (resume encounter.reply).amid (fun later => turns (later + 1)) encounter.after
    { passage with encounters := encounter :: passage.encounters }

/-! ### The courses of a query -/

/-- The store was reached, and a value was live under the call's key. -/
def Encounter.Occupied (encounter : Encounter) : Prop :=
  encounter.failure = none ∧ (encounter.store.get encounter.now encounter.call.key).1 ≠ none

/-- What a query may go through, and the record that it then ends with. -/
inductive QueryCourse (name : Digest) (status : Status) (ttl : Nat) :
    StatusRecord → List Encounter → Prop
  | found {first : Encounter} {record : StatusRecord} (looks : first.call = .get name.bytes)
      (found : first.found = some record) : QueryCourse name status ttl record [first]
  /-- The ledger's answer is put in, or the store fails. -/
  | seeded {first seed : Encounter} (looks : first.call = .get name.bytes)
      (missing : first.found = none)
      (seeds : seed.call = .setIfAbsent name.bytes (StatusRecord.bare status).encode ttl)
      (free : ¬ seed.Occupied) : QueryCourse name status ttl (.bare status) [first, seed]
  /-- Somebody was faster, and brought a record that is not behind. -/
  | overtaken {first seed again : Encounter} {record : StatusRecord}
      (looks : first.call = .get name.bytes) (missing : first.found = none)
      (seeds : seed.call = .setIfAbsent name.bytes (StatusRecord.bare status).encode ttl)
      (occupied : seed.Occupied) (looksAgain : again.call = .get name.bytes)
      (found : again.found = some record) (notBehind : status ≤ record.status) :
      QueryCourse name status ttl record [first, seed, again]
  /-- Somebody was faster, but brought no record, or one that is behind. -/
  | unmoved {first seed again : Encounter} (looks : first.call = .get name.bytes)
      (missing : first.found = none)
      (seeds : seed.call = .setIfAbsent name.bytes (StatusRecord.bare status).encode ttl)
      (occupied : seed.Occupied) (looksAgain : again.call = .get name.bytes)
      (behind : ∀ record, again.found = some record → record.status < status) :
      QueryCourse name status ttl (.bare status) [first, seed, again]

section

variable {name : Digest} {status : Status} {ttl : Nat}

/-- Nothing is put in, and the client is told so, exactly if something is live already. -/
theorem Encounter.occupied_iff (store : Store) (now : Int) (failure : Option Unavailable)
    (key value : Bytes) (ttl : Nat) :
    Occupied ⟨.setIfAbsent key value ttl, store, now, failure⟩ ↔
      reply ⟨.setIfAbsent key value ttl, store, now, failure⟩ = .ok false := by
  cases failure with
  | some error => simp [Occupied, reply]
  | none =>
    simp only [Occupied, reply, Store.answer, Store.setIfAbsent, Store.compareAndSet_eq, Call.key]
    split
    · rename_i nothing
      simp [nothing]
    · rename_i something
      simp [something]

theorem Exchange.seed_course {first : Encounter} (looks : first.call = .get name.bytes)
    (missing : first.found = none) (turns : Nat → Turn) (store : Store) :
    QueryCourse name status ttl ((seed name status ttl).amid turns store).result
      (first :: ((seed name status ttl).amid turns store).encounters) := by
  simp only [seed, amid]
  -- The reply decides how the query goes on, and it is `false` exactly if the key is occupied.
  have occupied := Encounter.occupied_iff ((turns 0).others store) (turns 0).now (turns 0).failure
    name.bytes (StatusRecord.bare status).encode ttl
  cases answered : ((turns 0).meet store
    (.setIfAbsent name.bytes (StatusRecord.bare status).encode ttl)).reply with
  | error error =>
    exact .seeded looks missing rfl fun taken => nomatch answered.symm.trans (occupied.mp taken)
  | ok reply =>
    match reply, answered with
    | true, answered =>
      exact .seeded looks missing rfl fun taken => nomatch answered.symm.trans (occupied.mp taken)
    | false, answered =>
      simp only [amid, reread]
      cases found : readable ((turns 1).meet _ (.get name.bytes)).reply with
      | none =>
        exact .unmoved looks missing rfl (occupied.mpr answered) rfl fun record read =>
          nomatch found.symm.trans read
      | some record =>
        dsimp only
        split
        · rename_i notBehind
          exact .overtaken looks missing rfl (occupied.mpr answered) rfl found notBehind
        · rename_i behind
          refine .unmoved looks missing rfl (occupied.mpr answered) rfl fun other read => ?_
          obtain rfl : record = other := Option.some.inj (found.symm.trans read)
          exact Status.not_le.mp behind

variable (name status ttl) in
/-- Whatever its calls meet, a query takes one of its courses. -/
theorem query_course (turns : Nat → Turn) (store : Store) :
    QueryCourse name status ttl ((query name status ttl).amid turns store).result
      ((query name status ttl).amid turns store).encounters := by
  rw [query_eq]
  simp only [Exchange.amid]
  cases found : readable ((turns 0).meet store (.get name.bytes)).reply with
  | some record => exact .found rfl found
  | none =>
    have missing : ((turns 0).meet store (.get name.bytes)).found = none := found
    exact Exchange.seed_course rfl missing _ _

/-! ### What a query writes -/

/-- A look writes nothing. -/
theorem Encounter.written_of_get {encounter : Encounter} {key : Bytes}
    (looks : encounter.call = .get key) : encounter.written = none := by
  obtain ⟨call, store, now, failure⟩ := encounter
  subst looks
  cases failure <;> rfl

/-- All that a call of a query writes is the ledger's word, where nothing is live. -/
theorem Encounter.of_written {encounter : Encounter}
    (made : encounter.call.OfQuery name status ttl) {write : Write}
    (written : encounter.written = some write) :
    write = ⟨name.bytes, (StatusRecord.bare status).encode, ttl⟩ ∧
      (encounter.store.get encounter.now name.bytes).1 = none := by
  obtain ⟨call, store, now, failure⟩ := encounter
  cases made with
  | get =>
    rw [written_of_get rfl] at written
    cases written
  | seed =>
    cases failure with
    | some error => cases written
    | none =>
      simp only [Encounter.written, reply, Store.answer, Store.setIfAbsent, Store.compareAndSet_eq]
        at written ⊢
      split at written
      · rename_i nothing
        exact ⟨(Option.some.inj written).symm, nothing⟩
      · cases written

/-- A call that fails leaves the store. One that is answered looks its key up and puts in what it
writes. -/
theorem Encounter.after_eq (encounter : Encounter) :
    encounter.after =
      if encounter.failure.isSome then encounter.store
      else match encounter.written with
      | none => (encounter.store.get encounter.now encounter.call.key).2
      | some write =>
        (encounter.store.get encounter.now encounter.call.key).2.put encounter.now write := by
  obtain ⟨call, store, now, failure⟩ := encounter
  cases failure with
  | some error => rfl
  | none =>
    show (store.answer now call).2 = _
    rw [store.answer_snd]
    rfl

namespace QueryCourse

variable {record : StatusRecord} {encounters : List Encounter}

theorem asks (course : QueryCourse name status ttl record encounters) :
    ∀ encounter ∈ encounters, encounter.call.OfQuery name status ttl := by
  cases course with
  | found looks found =>
    simp only [List.forall_mem_singleton, looks]
    exact .get
  | seeded looks missing seeds free =>
    simp only [List.forall_mem_cons, looks, seeds]
    exact ⟨.get, .seed, nofun⟩
  | overtaken looks missing seeds occupied looksAgain
  | unmoved looks missing seeds occupied looksAgain =>
    simp only [List.forall_mem_cons, looks, seeds, looksAgain]
    exact ⟨.get, .seed, .get, nofun⟩

theorem length_le (course : QueryCourse name status ttl record encounters) :
    encounters.length ≤ 3 := by
  cases course <;> simp

/-- Only one of the calls can write. -/
theorem written_le (course : QueryCourse name status ttl record encounters) :
    (encounters.filterMap Encounter.written).length ≤ 1 := by
  cases course with
  | found looks found =>
    simp [Encounter.written_of_get looks]
  | @seeded first seed looks missing seeds free =>
    rw [List.filterMap_cons_none (Encounter.written_of_get looks)]
    exact List.length_filterMap_le _ [seed]
  | @overtaken first seed again _ looks missing seeds occupied looksAgain
  | @unmoved first seed again looks missing seeds occupied looksAgain =>
    rw [List.filterMap_cons_none (Encounter.written_of_get looks)]
    simp only [List.filterMap_cons, Encounter.written_of_get looksAgain, List.filterMap_nil]
    cases seed.written <;> simp

end QueryCourse

/-! ### What a query answers -/

/-- What a query that began with the look `first` has come to. `status` is what the ledger says. -/
structure QueryAnswers (name : Digest) (status : Status) (ttl : Nat) (first : Encounter)
    (passage : Passage StatusRecord) : Prop where
  looks : passage.encounters.head? = some first ∧ first.call = .get name.bytes
  /-- A record that is found at once is the answer, and nothing is written. -/
  hit : ∀ record, first.found = some record → passage.result = record ∧ passage.written = []
  /-- Else the ledger's word is the answer, or a record that came before it could be put in. -/
  miss : first.found = none → passage.result = .bare status ∨
    ∃ seed again, passage.encounters = [first, seed, again] ∧
      seed.call = .setIfAbsent name.bytes (StatusRecord.bare status).encode ttl ∧ seed.Occupied ∧
      again.call = .get name.bytes ∧ again.found = some passage.result
  notBehind : first.found = none → status ≤ passage.result.status
  calls : passage.encounters.length ≤ 3
  once : passage.written.length ≤ 1
  /-- Nothing is written but the ledger's word, where nothing is live. -/
  writes : ∀ encounter ∈ passage.encounters, ∀ write, encounter.written = some write →
    write = ⟨name.bytes, (StatusRecord.bare status).encode, ttl⟩ ∧
      (encounter.store.get encounter.now name.bytes).1 = none
  /-- But for what is written, the calls are no more than looks. -/
  effect : ∀ encounter ∈ passage.encounters, encounter.after =
    if encounter.failure.isSome then encounter.store
    else match encounter.written with
    | none => (encounter.store.get encounter.now name.bytes).2
    | some write => (encounter.store.get encounter.now name.bytes).2.put encounter.now write

theorem QueryCourse.answers {passage : Passage StatusRecord}
    (course : QueryCourse name status ttl passage.result passage.encounters) :
    ∃ first, QueryAnswers name status ttl first passage := by
  have writes : ∀ encounter ∈ passage.encounters, ∀ write, encounter.written = some write →
      write = ⟨name.bytes, (StatusRecord.bare status).encode, ttl⟩ ∧
        (encounter.store.get encounter.now name.bytes).1 = none :=
    fun encounter member _ => Encounter.of_written (course.asks encounter member)
  have effect := fun encounter member => (course.asks encounter member).key ▸ encounter.after_eq
  have calls := course.length_le
  have once := course.written_le
  obtain ⟨result, encounters, store⟩ := passage
  dsimp only at course
  cases course with
  | @found first _ looks found =>
    refine ⟨first, ⟨rfl, looks⟩, fun record same => ?_, fun missing => ?_, fun missing => ?_, calls,
      once, writes, effect⟩
    · refine ⟨Option.some.inj (found.symm.trans same), ?_⟩
      rw [Passage.written, List.filterMap_cons_none (Encounter.written_of_get looks)]
      rfl
    · cases found.symm.trans missing
    · cases found.symm.trans missing
  | @seeded first seed looks missing =>
    exact ⟨first, ⟨rfl, looks⟩, fun record same => (by cases missing.symm.trans same),
      fun _ => .inl rfl, fun _ => Status.le_refl _, calls, once, writes, effect⟩
  | @overtaken first seed again _ looks missing seeds occupied looksAgain found notBehind =>
    exact ⟨first, ⟨rfl, looks⟩, fun record same => (by cases missing.symm.trans same),
      fun _ => .inr ⟨seed, again, rfl, seeds, occupied, looksAgain, found⟩, fun _ => notBehind,
      calls, once, writes, effect⟩
  | @unmoved first seed again looks missing =>
    exact ⟨first, ⟨rfl, looks⟩, fun record same => (by cases missing.symm.trans same),
      fun _ => .inl rfl, fun _ => Status.le_refl _, calls, once, writes, effect⟩

end

/-! ### The registry's queries -/

/-- A fault as what a call meets. -/
def Fault.turn (fault : Fault) (now : Int) (key : Bytes) (ttl : Nat) : Turn :=
  match fault with
  | .none => ⟨id, now, Option.none⟩
  | .unavailable reason => ⟨id, now, some ⟨reason⟩⟩
  | .intrusion value => ⟨fun store => store.overwrite now key value ttl, now, Option.none⟩

theorem Site.perform_eq (site : Site) (now : Int) (call : Call) :
    site.perform now call =
      ((((site.faults.take call).1.turn now call.key site.ttl).meet site.store call).reply,
        ⟨(((site.faults.take call).1.turn now call.key site.ttl).meet site.store call).after,
          (site.faults.take call).2, site.ttl⟩) := by
  obtain ⟨store, faults, ttl⟩ := site
  simp only [perform, performBy]
  cases (faults.take call).1 <;> rfl

/-- A site runs an exchange as it goes amid certain turns. -/
def Site.RunsAmid {α : Type} (site : Site) (now : Int) (turns : Nat → Turn)
    (exchange : Exchange α) : Prop :=
  (site.run now exchange).1 = (exchange.amid turns site.store).result ∧
    (site.run now exchange).2.store = (exchange.amid turns site.store).store

theorem Site.runsAmid_done {α : Type} (site : Site) (now : Int) (turns : Nat → Turn) (result : α) :
    site.RunsAmid now turns (.done result) := ⟨rfl, rfl⟩

/-- The fault that waits for a call is what the call meets. -/
theorem Site.runsAmid_ask {α : Type} {site : Site} {now : Int} {turns : Nat → Turn} {call : Call}
    {resume : Except Unavailable call.Reply → Exchange α}
    (meets : turns 0 = (site.faults.take call).1.turn now call.key site.ttl)
    (rest : ∀ reply store, RunsAmid ⟨store, (site.faults.take call).2, site.ttl⟩ now
      (fun later => turns (later + 1)) (resume reply)) :
    site.RunsAmid now turns (.ask call resume) := by
  rw [RunsAmid, run, perform_eq, Exchange.amid, ← meets]
  exact rest _ _

/-- What the calls of a query meet where these faults wait: it looks, writes, and looks again. -/
def Faults.turnsOfQuery (faults : Faults) (now : Int) (name : Digest) (ttl : Nat) : Nat → Turn
  | 0 => (next faults.get).turn now name.bytes ttl
  | 1 => (next faults.setIfAbsent).turn now name.bytes ttl
  | _ => (next faults.get.tail).turn now name.bytes ttl

/-- A site runs a query amid the faults that wait there. -/
theorem Site.query_runsAmid (site : Site) (now : Int) (name : Digest) (status : Status) :
    site.RunsAmid now (site.faults.turnsOfQuery now name site.ttl) (query name status site.ttl) := by
  rw [query_eq]
  refine runsAmid_ask rfl fun reply store => ?_
  split
  · exact runsAmid_done _ _ _ _
  · refine runsAmid_ask rfl fun reply store => ?_
    match reply with
    | .error _ | .ok true => exact runsAmid_done _ _ _ _
    | .ok false =>
      refine runsAmid_ask rfl fun reply store => ?_
      unfold Exchange.reread
      split
      · split
        · exact runsAmid_done _ _ _ _
        · exact runsAmid_done _ _ _ _
      · exact runsAmid_done _ _ _ _

end Cache

open Cache in
/-- What the registry says of a transaction, amid anything that others do and any failures. The
ledger's word is that the transaction is unknown if the ledger fails. -/
theorem Registry.status_amid {L : Type} [Ledger L] (registry : Registry L) (name : Digest) :
    ∃ status,
      (Ledger.status registry.ledger name = .ok status ∨
        status = .unknown ∧ ∃ error, Ledger.status registry.ledger name = .error error) ∧
      (∀ ttl turns store,
        ∃ first, QueryAnswers name status ttl first ((query name status ttl).amid turns store)) ∧
      let passage := (query name status registry.cache.ttl).amid
        (registry.cache.faults.turnsOfQuery registry.now name registry.cache.ttl)
        registry.cache.store
      (registry.status name).1 = passage.result ∧
        (registry.status name).2.cache.store = passage.store := by
  refine ⟨registry.ledgerStatus name, ?_, fun ttl turns store =>
    (query_course name _ ttl turns store).answers, ?_⟩
  · unfold ledgerStatus
    cases Ledger.status registry.ledger name with
    | ok status => exact .inl rfl
    | error error => exact .inr ⟨rfl, error, rfl⟩
  · exact registry.cache.query_runsAmid registry.now name (registry.ledgerStatus name)

end StreamLedger
