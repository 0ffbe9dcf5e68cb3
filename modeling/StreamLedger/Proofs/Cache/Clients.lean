/-
This file is about many clients that share one store. Each of them makes its calls one at a time,
and between two calls of one client any number of calls of others may come, time may pass, and a
call may fail. The calls that were answered are kept in a journal. However the calls fall, a live
record is only ever replaced by one that is not lower: a query writes where nothing is live, and an
update writes over the bytes that it has read and found not to be higher. And an update has written
once if it says so, and never otherwise.
-/
import StreamLedger.Proofs.Cache

namespace StreamLedger.Cache

/-! ### What a call writes -/

/-- A value that is put under a key and lives for a time. -/
structure Write where
  key : Bytes
  value : Bytes
  ttl : Nat
deriving DecidableEq

/-- What a call has put into the store, judging by the reply to it. -/
def Call.written : (call : Call) → call.Reply → Option Write
  | .get _, _ => none
  | .setIfAbsent key value ttl, true | .compareAndSet key _ value ttl, true =>
    some ⟨key, value, ttl⟩
  | .setIfAbsent _ _ _, false | .compareAndSet _ _ _ _, false => none

namespace Store

variable {store : Store} {now : Int} {key other : Bytes} {write : Write}

/-- The record that is live under a key, if one is and can be read. -/
def record (store : Store) (now : Int) (key : Bytes) : Option StatusRecord :=
  readable (.ok (store.get now key).1)

/-- The store after a write. -/
def put (store : Store) (now : Int) (write : Write) : Store :=
  store.write now write.key write.value write.ttl

theorem compareAndSet_eq (expected : Option Bytes) (value : Bytes) (ttl : Nat) :
    store.compareAndSet now key expected value ttl =
      if (store.get now key).1 = expected then
        (true, (store.get now key).2.write now key value ttl)
      else (false, (store.get now key).2) := rfl

/-- A call looks its key up and then puts in what it writes. -/
theorem answer_snd (call : Call) :
    (store.answer now call).2 =
      match call.written (store.answer now call).1 with
      | none => (store.get now call.key).2
      | some write => (store.get now call.key).2.put now write := by
  cases call with
  | get key => rfl
  | setIfAbsent key value ttl =>
    simp only [answer, setIfAbsent, compareAndSet_eq, Call.key]
    split <;> rfl
  | compareAndSet key expected value ttl =>
    simp only [answer, compareAndSet_eq, Call.key]
    split <;> rfl

/-- What a call writes stands under the call's key. -/
theorem key_of_written {call : Call} {reply : call.Reply}
    (written : call.written reply = some write) : write.key = call.key := by
  cases call with
  | get key => cases written
  | setIfAbsent key value ttl =>
    cases reply <;> cases written
    rfl
  | compareAndSet key expected value ttl =>
    cases reply <;> cases written
    rfl

/-! ### Under one key and under others -/

theorem find?_others_of_ne (different : other ≠ key) :
    (store.others key).find? (fun entry => entry.key == other) =
      store.entries.find? fun entry => entry.key == other := by
  rw [others, List.find?_filter]
  refine congrArg (List.find? · store.entries) (funext fun entry => ?_)
  by_cases same : entry.key = other
  · simp [same, different]
  · simp [same]

/-- What a lookup finds hangs on nothing but the entry of its key. -/
theorem get_fst_eq_of_find?_eq {changed : Store}
    (same : changed.entries.find? (fun entry => entry.key == key) =
      store.entries.find? fun entry => entry.key == key) :
    (changed.get now key).1 = (store.get now key).1 := by
  unfold get
  rw [same]
  split
  · rfl
  · split <;> rfl

theorem find?_get_of_ne (different : other ≠ key) :
    (store.get now key).2.entries.find? (fun entry => entry.key == other) =
      store.entries.find? fun entry => entry.key == other := by
  unfold get
  split
  · rfl
  · rename_i entry standing
    have here : entry.key = key := by simpa using List.find?_some standing
    split
    · rw [List.find?_cons_of_neg (by simpa [here] using Ne.symm different),
        find?_others_of_ne different]
    · exact find?_others_of_ne different

/-- A lookup leaves what is live under other keys. -/
theorem get_get_of_ne (different : other ≠ key) :
    ((store.get now key).2.get now other).1 = (store.get now other).1 :=
  get_fst_eq_of_find?_eq (find?_get_of_ne different)

variable (store now) in
/-- A write leaves what is live under other keys, or drops it. -/
theorem get_put_of_ne (different : other ≠ write.key) :
    ((store.put now write).get now other).1 = none ∨
      ((store.put now write).get now other).1 = (store.get now other).1 := by
  cases found : (store.put now write).entries.find? fun entry => entry.key == other with
  | none =>
    refine Or.inl ?_
    unfold get
    rw [found]
  | some entry =>
    refine Or.inr (get_fst_eq_of_find?_eq ?_)
    have whole := (List.take_prefix _ _).find?_eq_some found
    rw [List.find?_cons_of_neg (by simpa using Ne.symm different), find?_others_of_ne different]
      at whole
    rw [found, whole]

variable (store now write) in
/-- A write leaves nothing else live under its own key. -/
theorem get_put_self :
    ((store.put now write).get now write.key).1 = none ∨
      ((store.put now write).get now write.key).1 = some write.value := by
  cases found : ((store.put now write).get now write.key).1 with
  | none => exact Or.inl rfl
  | some bytes =>
    obtain ⟨entry, member, key, rfl, _⟩ := of_get_eq_some found
    rcases of_mem_write member with rfl | ⟨_, different⟩
    · exact Or.inr rfl
    · exact absurd key different

variable (store now) in
/-- A call leaves what is live under other keys, or drops it. -/
theorem get_answer_of_ne {call : Call} (different : other ≠ call.key) :
    ((store.answer now call).2.get now other).1 = none ∨
      ((store.answer now call).2.get now other).1 = (store.get now other).1 := by
  rw [answer_snd]
  cases written : call.written (store.answer now call).1 with
  | none => exact Or.inr (get_get_of_ne different)
  | some write =>
    have apart : other ≠ write.key := key_of_written written ▸ different
    exact (get_put_of_ne _ now apart).imp_right (·.trans (get_get_of_ne different))

end Store

/-! ### The steps of a query and of an update -/

/-- What a query does once somebody was faster than it. -/
def Exchange.reread (status : Status) (reply : Except Unavailable (Option Bytes)) :
    Exchange StatusRecord :=
  match readable reply with
  | some existing => if status ≤ existing.status then .done existing else .done (.bare status)
  | none => .done (.bare status)

/-- What a query does where it finds no record. -/
def Exchange.seed (name : Digest) (status : Status) (ttl : Nat) : Exchange StatusRecord :=
  .ask (.setIfAbsent name.bytes (StatusRecord.bare status).encode ttl) fun
    | .error _ | .ok true => .done (.bare status)
    | .ok false => .ask (.get name.bytes) (Exchange.reread status)

theorem query_eq (name : Digest) (status : Status) (ttl : Nat) :
    query name status ttl =
      .ask (.get name.bytes) fun reply =>
        match readable reply with
        | some cached => .done cached
        | none => .seed name status ttl := by
  refine congrArg (Exchange.ask _) (funext fun reply => ?_)
  cases readable reply with
  | some cached => rfl
  | none =>
    refine congrArg (Exchange.ask _) (funext fun reply => ?_)
    rcases reply with error | (_ | _) <;> rfl

/-- What an update does once it may write over what it has read. -/
def Exchange.replace (name : Digest) (record : StatusRecord) (ttl : Nat) (seen : Option Bytes) :
    Exchange (Except Unavailable Outcome) :=
  .ask (.compareAndSet name.bytes seen record.encode ttl) fun
    | .error error => .done (.error error)
    | .ok true => .done (.ok .written)
    | .ok false => .ask (.get name.bytes) fun _ => .done (.ok .raceAbandoned)

/-- What an update does with what it has read. -/
def Exchange.advance (name : Digest) (record : StatusRecord) (ttl : Nat) (seen : Option Bytes) :
    Exchange (Except Unavailable Outcome) :=
  match readable (.ok seen) with
  | some current =>
    if record.status < current.status then .done (.ok .downgradeRejected)
    else .replace name record ttl seen
  | none => .replace name record ttl seen

theorem Exchange.eq_replace {name : Digest} {record : StatusRecord} {ttl : Nat}
    {seen : Option Bytes} {resume : Except Unavailable Bool → Exchange (Except Unavailable Outcome)}
    (failed : ∀ error, resume (.error error) = .done (.error error))
    (wrote : resume (.ok true) = .done (.ok .written))
    (lost : resume (.ok false) = .ask (.get name.bytes) fun _ => .done (.ok .raceAbandoned)) :
    .ask (.compareAndSet name.bytes seen record.encode ttl) resume =
      Exchange.replace name record ttl seen := by
  refine congrArg (Exchange.ask _) (funext fun reply => ?_)
  match reply with
  | .error error => exact failed error
  | .ok true => exact wrote
  | .ok false => exact lost

theorem update_eq (name : Digest) (record : StatusRecord) (ttl : Nat) :
    update name record ttl =
      .ask (.get name.bytes) fun
        | .error error => .done (.error error)
        | .ok seen => .advance name record ttl seen := by
  refine congrArg (Exchange.ask _) (funext fun reply => ?_)
  rcases reply with error | (seen : Option Bytes)
  · rfl
  · simp only [Exchange.advance]
    cases readable (.ok seen) with
    | none => exact Exchange.eq_replace (fun _ => rfl) rfl rfl
    | some current =>
      dsimp only
      split
      · rfl
      · exact Exchange.eq_replace (fun _ => rfl) rfl rfl

/-! ### Cautious calls -/

/-- A call is cautious if it overwrites a record only by one that is not lower. -/
def Call.Cautious : Call → Prop
  | .get _ | .setIfAbsent _ _ _ => True
  | .compareAndSet _ expected value _ => ∀ old, readable (.ok expected) = some old →
    ∃ new, StatusRecord.decode value = .ok new ∧ old.status ≤ new.status

/-- What a cautious call writes over a live record is a record that is not lower. -/
theorem Store.raises_of_written {store : Store} {now : Int} {call : Call} (cautious : call.Cautious)
    {write : Write} (written : call.written (store.answer now call).1 = some write)
    {old : StatusRecord} (live : store.record now write.key = some old) :
    ∃ new, StatusRecord.decode write.value = .ok new ∧ old.status ≤ new.status := by
  rw [key_of_written written] at live
  cases call with
  | get key => cases written
  | setIfAbsent key value ttl =>
    simp only [answer, setIfAbsent, compareAndSet_eq] at written
    split at written
    · rename_i absent
      rw [record, Call.key, absent] at live
      cases live
    · cases written
  | compareAndSet key expected value ttl =>
    simp only [answer, compareAndSet_eq] at written
    split at written
    · rename_i expects
      rw [record, Call.key, expects] at live
      cases written
      exact cautious old live
    · cases written

namespace Exchange

variable {α β : Type}

def map (f : α → β) : Exchange α → Exchange β
  | .done result => .done (f result)
  | .ask call resume => .ask call fun reply => (resume reply).map f

/-- An exchange makes none but allowed calls, however they are answered. -/
def Asks (allowed : Call → Prop) : Exchange α → Prop
  | .done _ => True
  | .ask call resume => allowed call ∧ ∀ reply, (resume reply).Asks allowed

theorem Asks.mono {called allowed : Call → Prop} {exchange : Exchange α}
    (asks : exchange.Asks called) (allows : ∀ call, called call → allowed call) :
    exchange.Asks allowed := by
  induction exchange with
  | done result => trivial
  | ask call resume inductionHypothesis =>
    exact ⟨allows call asks.1, fun reply => inductionHypothesis reply (asks.2 reply)⟩

theorem Asks.map {allowed : Call → Prop} {f : α → β} {exchange : Exchange α}
    (asks : exchange.Asks allowed) : (exchange.map f).Asks allowed := by
  induction exchange with
  | done result => trivial
  | ask call resume inductionHypothesis =>
    exact ⟨asks.1, fun reply => inductionHypothesis reply (asks.2 reply)⟩

/-- However its calls are answered, an exchange that has written `writes` so far makes none but
allowed calls, and what it has written at its end goes with its result. -/
def Obeys (allowed : Call → Prop) (ends : List Write → α → Prop) : List Write → Exchange α → Prop
  | writes, .done result => ends writes result
  | writes, .ask call resume => allowed call ∧
    (∀ error, (resume (.error error)).Obeys allowed ends writes) ∧
    ∀ reply, (resume (.ok reply)).Obeys allowed ends (writes ++ (call.written reply).toList)

theorem Obeys.map {allowed : Call → Prop} {ends : List Write → β → Prop} {f : α → β}
    {writes : List Write} {exchange : Exchange α}
    (obeys : exchange.Obeys allowed (fun writes result => ends writes (f result)) writes) :
    (exchange.map f).Obeys allowed ends writes := by
  induction exchange generalizing writes with
  | done result => exact obeys
  | ask call resume inductionHypothesis =>
    obtain ⟨allowed, failed, answered⟩ := obeys
    exact ⟨allowed, fun error => inductionHypothesis _ (failed error),
      fun reply => inductionHypothesis _ (answered reply)⟩

/-- Where only the calls matter, it does not matter what was written. -/
theorem Asks.obeys {called allowed : Call → Prop} {exchange : Exchange α}
    (asks : exchange.Asks called) (allows : ∀ call, called call → allowed call)
    (writes : List Write) : exchange.Obeys allowed (fun _ _ => True) writes := by
  induction exchange generalizing writes with
  | done result => trivial
  | ask call resume inductionHypothesis =>
    exact ⟨allows call asks.1, fun error => inductionHypothesis _ (asks.2 (.error error)) writes,
      fun reply => inductionHypothesis _ (asks.2 (.ok reply)) _⟩

end Exchange

/-- The calls of a query: it looks its transaction up, and it puts the ledger's answer in where
nothing is live. -/
inductive Call.OfQuery (name : Digest) (ledgerStatus : Status) (ttl : Nat) : Call → Prop
  | get : OfQuery name ledgerStatus ttl (.get name.bytes)
  | seed : OfQuery name ledgerStatus ttl
      (.setIfAbsent name.bytes (StatusRecord.bare ledgerStatus).encode ttl)

/-- The calls of an update: it looks its transaction up, and it puts its record in where what it
has read is live. -/
inductive Call.OfUpdate (name : Digest) (record : StatusRecord) (ttl : Nat) : Call → Prop
  | get : OfUpdate name record ttl (.get name.bytes)
  | replace (seen : Option Bytes) : OfUpdate name record ttl
      (.compareAndSet name.bytes seen record.encode ttl)

section

variable {name : Digest} {ledgerStatus : Status} {record : StatusRecord} {ttl : Nat} {call : Call}

theorem Call.OfQuery.key (made : call.OfQuery name ledgerStatus ttl) : call.key = name.bytes := by
  cases made <;> rfl

theorem Call.OfUpdate.key (made : call.OfUpdate name record ttl) : call.key = name.bytes := by
  cases made <;> rfl

end

section

variable (name : Digest) (ledgerStatus : Status) (ttl : Nat)

theorem Exchange.reread_asks (allowed : Call → Prop)
    (reply : Except Unavailable (Option Bytes)) : (reread ledgerStatus reply).Asks allowed := by
  unfold reread
  split
  · split <;> trivial
  · trivial

theorem Exchange.seed_asks :
    (seed name ledgerStatus ttl).Asks (Call.OfQuery name ledgerStatus ttl) := by
  refine ⟨.seed, fun reply => ?_⟩
  match reply with
  | .error _ | .ok true => trivial
  | .ok false => exact ⟨.get, fun reply => reread_asks ledgerStatus _ reply⟩

theorem query_asks :
    (query name ledgerStatus ttl).Asks (Call.OfQuery name ledgerStatus ttl) := by
  rw [query_eq]
  refine ⟨.get, fun reply => ?_⟩
  dsimp only
  split
  · trivial
  · exact Exchange.seed_asks name ledgerStatus ttl

/-- A query never overwrites anything. -/
theorem query_obeys :
    (query name ledgerStatus ttl).Obeys Call.Cautious (fun _ _ => True) [] :=
  (query_asks name ledgerStatus ttl).obeys (fun _ made => by cases made <;> trivial) []

end

/-- What an update has written at its end: its record if it says so, and nothing otherwise. -/
def Outcome.writes (name : Digest) (record : StatusRecord) (ttl : Nat) :
    Except Unavailable Outcome → List Write
  | .ok .written => [⟨name.bytes, record.encode, ttl⟩]
  | .ok .downgradeRejected | .ok .raceAbandoned | .error _ => []

section

variable {name : Digest} {record : StatusRecord} {ttl : Nat} {seen : Option Bytes}

theorem Exchange.replace_obeys
    (notHigher : ∀ old, readable (.ok seen) = some old → old.status ≤ record.status) :
    (replace name record ttl seen).Obeys Call.Cautious
      (fun writes outcome => writes = Outcome.writes name record ttl outcome) [] := by
  refine ⟨fun old found => ⟨record.kept, StatusRecord.decode_encode record, notHigher old found⟩,
    fun error => rfl, fun reply => ?_⟩
  match reply with
  | true => rfl
  | false => exact ⟨trivial, fun error => rfl, fun reply => rfl⟩

theorem Exchange.advance_obeys :
    (advance name record ttl seen).Obeys Call.Cautious
      (fun writes outcome => writes = Outcome.writes name record ttl outcome) [] := by
  unfold advance
  split
  · rename_i current found
    split
    · rfl
    · rename_i notLower
      refine replace_obeys fun old same => ?_
      rw [found] at same
      cases same
      exact Status.not_lt.mp notLower
  · rename_i missing
    refine replace_obeys fun old found => ?_
    rw [missing] at found
    cases found

end

/-- An update overwrites only the bytes that it has read, and those only if they are no record or
one that is not higher. -/
theorem update_obeys (name : Digest) (record : StatusRecord) (ttl : Nat) :
    (update name record ttl).Obeys Call.Cautious
      (fun writes outcome => writes = Outcome.writes name record ttl outcome) [] := by
  rw [update_eq]
  exact ⟨trivial, fun error => rfl, fun seen => Exchange.advance_obeys⟩

theorem Exchange.replace_asks (name : Digest) (record : StatusRecord) (ttl : Nat)
    (seen : Option Bytes) :
    (replace name record ttl seen).Asks (Call.OfUpdate name record ttl) := by
  refine ⟨.replace seen, fun reply => ?_⟩
  match reply with
  | .error _ | .ok true => trivial
  | .ok false => exact ⟨.get, fun _ => trivial⟩

theorem Exchange.advance_asks (name : Digest) (record : StatusRecord) (ttl : Nat)
    (seen : Option Bytes) :
    (advance name record ttl seen).Asks (Call.OfUpdate name record ttl) := by
  unfold advance
  split
  · split
    · trivial
    · exact replace_asks name record ttl seen
  · exact replace_asks name record ttl seen

theorem update_asks (name : Digest) (record : StatusRecord) (ttl : Nat) :
    (update name record ttl).Asks (Call.OfUpdate name record ttl) := by
  rw [update_eq]
  refine ⟨.get, fun reply => ?_⟩
  match reply with
  | .error _ => trivial
  | .ok seen => exact Exchange.advance_asks name record ttl seen

/-! ### Clients -/

/-- What a client comes for. A query comes with what the ledger says. -/
inductive Task where
  | query (name : Digest) (ledgerStatus : Status)
  | update (name : Digest) (record : StatusRecord)
deriving DecidableEq

/-- What a client has got at its end. -/
inductive Result where
  | answered (record : StatusRecord)
  | ended (outcome : Except Unavailable Outcome)

def Task.exchange (ttl : Nat) : Task → Exchange Result
  | .query name ledgerStatus => (Cache.query name ledgerStatus ttl).map .answered
  | .update name record => (Cache.update name record ttl).map .ended

/-- An update has written what its outcome says. -/
def Task.Accounts (ttl : Nat) : Task → List Write → Result → Prop
  | .update name record, writes, .ended outcome => writes = Outcome.writes name record ttl outcome
  | _, _, _ => True

theorem Task.exchange_obeys (task : Task) (ttl : Nat) :
    (task.exchange ttl).Obeys Call.Cautious (task.Accounts ttl) [] := by
  cases task with
  | query name ledgerStatus => exact Exchange.Obeys.map (f := Result.answered) (query_obeys _ _ _)
  | update name record => exact Exchange.Obeys.map (f := Result.ended) (update_obeys _ _ _)

/-- A client, and what is left of its exchange. -/
structure Session where
  task : Task
  rest : Exchange Result

/-- What the client has got, if it is at its end. -/
def Session.result (session : Session) : Option Result :=
  match session.rest with
  | .done result => some result
  | .ask _ _ => none

/-- A call that was answered, with the store before and after it. -/
structure Answered where
  client : Nat
  now : Int
  call : Call
  reply : call.Reply
  before : Store
  after : Store

def Answered.written (answered : Answered) : Option Write :=
  answered.call.written answered.reply

/-- The call has looked its key up and put in what it has written, it has written over a live record
only one that is not lower, and no live record has made room for a lower one. -/
structure Answered.Careful (answered : Answered) : Prop where
  effect : answered.after =
    match answered.written with
    | none => (answered.before.get answered.now answered.call.key).2
    | some write => (answered.before.get answered.now answered.call.key).2.put answered.now write
  raises : ∀ write, answered.written = some write →
    ∀ old, answered.before.record answered.now write.key = some old →
      ∃ new, StatusRecord.decode write.value = .ok new ∧ old.status ≤ new.status
  keeps : ∀ key old new, answered.before.record answered.now key = some old →
    answered.after.record answered.now key = some new → old.status ≤ new.status

theorem readable_eq_some {bytes : Bytes} {record : StatusRecord} :
    readable (.ok (some bytes)) = some record ↔ StatusRecord.decode bytes = .ok record := by
  simp only [readable]
  split
  · rename_i decoded
    rw [decoded]
    exact ⟨fun same => congrArg _ (Option.some.inj same),
      fun same => congrArg _ (Except.ok.inj same)⟩
  · rename_i undecoded
    rw [undecoded]
    exact ⟨fun same => (by cases same), fun same => (by cases same)⟩

theorem Answered.careful_of_cautious {call : Call} (cautious : call.Cautious) (client : Nat)
    (now : Int) (store : Store) :
    Careful ⟨client, now, call, (store.answer now call).1, store, (store.answer now call).2⟩ where
  effect := store.answer_snd call
  raises _ written _ live := Store.raises_of_written cautious written live
  keeps key old new live after := by
    dsimp only at live after
    by_cases here : key = call.key
    · rw [store.answer_snd call] at after
      cases written : call.written (store.answer now call).1 with
      | none =>
        rw [written, Store.record, here, Store.get_get, ← here, ← Store.record, live] at after
        cases after
        exact Status.le_refl _
      | some write =>
        have same : key = write.key := here.trans (Store.key_of_written written).symm
        subst same
        obtain ⟨raised, decoded, raises⟩ := Store.raises_of_written cautious written live
        rw [written] at after
        rcases (store.get now call.key).2.get_put_self now write with gone | there
        · rw [Store.record, gone] at after
          cases after
        · rw [Store.record, there, readable_eq_some, decoded] at after
          cases after
          exact raises
    · rcases store.get_answer_of_ne now here with gone | there
      · rw [Store.record, gone] at after
        cases after
      · rw [Store.record, there, ← Store.record, live] at after
        cases after
        exact Status.le_refl _

/-- A store, the clients that have come to it, and every call of theirs that was answered. -/
structure Clients where
  store : Store
  now : Int
  /-- How long what they write lives. -/
  ttl : Nat
  sessions : List Session
  journal : List Answered

/-- What may happen next. -/
inductive Move where
  | come (task : Task)
  /-- The call that the client waits for is answered. -/
  | answer (client : Nat)
  /-- The call that the client waits for fails, without effect. -/
  | fail (client : Nat) (reason : String)
  | pass (ms : Nat)
deriving DecidableEq

namespace Clients

def start (store : Store) (now : Int) (ttl : Nat) : Clients := ⟨store, now, ttl, [], []⟩

def move (clients : Clients) : Move → Clients
  | .come task =>
    { clients with sessions := clients.sessions ++ [⟨task, task.exchange clients.ttl⟩] }
  | .answer client =>
    match clients.sessions[client]? with
    | some ⟨task, .ask call resume⟩ =>
      let (reply, store) := clients.store.answer clients.now call
      { clients with
        store
        sessions := clients.sessions.set client ⟨task, resume (.ok reply)⟩
        journal := clients.journal ++ [⟨client, clients.now, call, reply, clients.store, store⟩] }
    | some ⟨_, .done _⟩ | none => clients
  | .fail client reason =>
    match clients.sessions[client]? with
    | some ⟨task, .ask _ resume⟩ =>
      { clients with
        sessions := clients.sessions.set client ⟨task, resume (.error ⟨reason⟩)⟩ }
    | some ⟨_, .done _⟩ | none => clients
  | .pass ms => { clients with now := clients.now + ms }

def run (clients : Clients) (moves : List Move) : Clients :=
  moves.foldl move clients

/-- What a client has come for. -/
def task (clients : Clients) (client : Nat) : Option Task :=
  clients.sessions[client]?.map Session.task

/-- What a client has got, if it is at its end. -/
def result (clients : Clients) (client : Nat) : Option Result :=
  clients.sessions[client]?.bind Session.result

/-- What a client has written so far, the first write first. -/
def writesOf (clients : Clients) (client : Nat) : List Write :=
  clients.journal.filterMap fun answered =>
    if answered.client = client then answered.written else none

/-- The journal tells of careful calls only, and each client keeps to it. -/
structure Orderly (clients : Clients) : Prop where
  careful : ∀ answered ∈ clients.journal, answered.Careful
  known : ∀ answered ∈ clients.journal, answered.client < clients.sessions.length
  obeys : ∀ client (session : Session), clients.sessions[client]? = some session →
    session.rest.Obeys Call.Cautious (session.task.Accounts clients.ttl) (clients.writesOf client)

/-- The ways in which a move may go. -/
inductive Moves (clients : Clients) : Move → Clients → Prop
  | came (task : Task) :
      Moves clients (.come task)
        { clients with sessions := clients.sessions ++ [⟨task, task.exchange clients.ttl⟩] }
  /-- There is no such client, or it is at its end. -/
  | unanswered {client : Nat}
      (idle : ∀ task call resume, clients.sessions[client]? ≠ some ⟨task, .ask call resume⟩) :
      Moves clients (.answer client) clients
  | unfailed {client : Nat} {reason : String}
      (idle : ∀ task call resume, clients.sessions[client]? ≠ some ⟨task, .ask call resume⟩) :
      Moves clients (.fail client reason) clients
  | answered {client : Nat} {task : Task} {call : Call}
      {resume : Except Unavailable call.Reply → Exchange Result}
      (asks : clients.sessions[client]? = some ⟨task, .ask call resume⟩) :
      Moves clients (.answer client)
        { clients with
          store := (clients.store.answer clients.now call).2
          sessions := clients.sessions.set client
            ⟨task, resume (.ok (clients.store.answer clients.now call).1)⟩
          journal := clients.journal ++ [⟨client, clients.now, call,
            (clients.store.answer clients.now call).1, clients.store,
            (clients.store.answer clients.now call).2⟩] }
  | failed {client : Nat} {reason : String} {task : Task} {call : Call}
      {resume : Except Unavailable call.Reply → Exchange Result}
      (asks : clients.sessions[client]? = some ⟨task, .ask call resume⟩) :
      Moves clients (.fail client reason)
        { clients with
          sessions := clients.sessions.set client ⟨task, resume (.error ⟨reason⟩)⟩ }
  | passed (ms : Nat) : Moves clients (.pass ms) { clients with now := clients.now + ms }

theorem moves (clients : Clients) (move : Move) : clients.Moves move (clients.move move) := by
  cases move with
  | come task => exact .came task
  | answer client =>
    simp only [Clients.move]
    split
    · rename_i asks
      exact .answered asks
    all_goals
      rename_i there
      exact .unanswered fun task call resume => by simp [there]
  | fail client reason =>
    simp only [Clients.move]
    split
    · rename_i asks
      exact .failed asks
    all_goals
      rename_i there
      exact .unfailed fun task call resume => by simp [there]
  | pass ms => exact .passed ms

/-- A session is the one that has come, or it was there before. -/
theorem of_getElem?_append {sessions : List Session} {new session : Session} {client : Nat}
    (found : (sessions ++ [new])[client]? = some session) :
    client = sessions.length ∧ session = new ∨ sessions[client]? = some session := by
  rw [List.getElem?_append, List.getElem?_singleton] at found
  split at found
  · exact Or.inr found
  · split at found
    · exact Or.inl ⟨by omega, (Option.some.inj found).symm⟩
    · cases found

/-- A session is the one that goes on, or that of another client. -/
theorem of_getElem?_set {sessions : List Session} {new session : Session} {client other : Nat}
    (found : (sessions.set client new)[other]? = some session) :
    other = client ∧ session = new ∨ other ≠ client ∧ sessions[other]? = some session := by
  rw [List.getElem?_set] at found
  split at found
  · rename_i same
    split at found
    · exact Or.inl ⟨same.symm, (Option.some.inj found).symm⟩
    · cases found
  · rename_i apart
    exact Or.inr ⟨Ne.symm apart, found⟩

theorem orderly_start (store : Store) (now : Int) (ttl : Nat) : (start store now ttl).Orderly where
  careful := nofun
  known := nofun
  obeys := nofun

variable {clients : Clients}

/-- A client that is not known has written nothing. -/
theorem Orderly.writesOf_eq_nil (orderly : clients.Orderly) {client : Nat}
    (unknown : clients.sessions.length ≤ client) : clients.writesOf client = [] := by
  refine List.filterMap_eq_nil_iff.mpr fun answered member => if_neg ?_
  have known := orderly.known answered member
  omega

/-- A client that comes has written nothing, and its exchange begins. -/
theorem Orderly.came (orderly : clients.Orderly) (task : Task) :
    Orderly { clients with
      sessions := clients.sessions ++ [⟨task, task.exchange clients.ttl⟩] } where
  careful := orderly.careful
  known answered member := by
    have known := orderly.known answered member
    simp only [List.length_append, List.length_singleton]
    omega
  obeys client session found := by
    rcases of_getElem?_append found with ⟨new, rfl⟩ | before
    · change Exchange.Obeys _ _ (clients.writesOf client) _
      rw [orderly.writesOf_eq_nil (Nat.le_of_eq new.symm)]
      exact task.exchange_obeys clients.ttl
    · exact orderly.obeys client session before

/-- What the clients have written by the calls of a journal and one call more. -/
theorem writesOf_concat (store : Store) (now : Int) (ttl : Nat) (sessions : List Session)
    (journal : List Answered) (answered : Answered) (client : Nat) :
    writesOf ⟨store, now, ttl, sessions, journal ++ [answered]⟩ client =
      writesOf ⟨store, now, ttl, sessions, journal⟩ client ++
        if answered.client = client then answered.written.toList else [] := by
  simp only [writesOf, List.filterMap_append, List.append_cancel_left_eq]
  split
  · cases written : answered.written <;> simp [*]
  · simp [*]

/-- A cautious call is answered, and nobody but its client goes on. -/
theorem Orderly.answered (orderly : clients.Orderly) {client : Nat} {task : Task} {call : Call}
    {resume : Except Unavailable call.Reply → Exchange Result}
    (asks : clients.sessions[client]? = some ⟨task, .ask call resume⟩) :
    Orderly { clients with
      store := (clients.store.answer clients.now call).2
      sessions := clients.sessions.set client
        ⟨task, resume (.ok (clients.store.answer clients.now call).1)⟩
      journal := clients.journal ++ [⟨client, clients.now, call,
        (clients.store.answer clients.now call).1, clients.store,
        (clients.store.answer clients.now call).2⟩] } := by
  obtain ⟨cautious, _, goesOn⟩ := orderly.obeys client _ asks
  constructor
  · intro answered member
    rcases List.mem_append.mp member with before | last
    · exact orderly.careful answered before
    · obtain rfl := List.mem_singleton.mp last
      exact Answered.careful_of_cautious cautious client clients.now clients.store
  · intro answered member
    rw [List.length_set]
    rcases List.mem_append.mp member with before | last
    · exact orderly.known answered before
    · obtain rfl := List.mem_singleton.mp last
      exact (List.getElem?_eq_some_iff.mp asks).1
  · intro other session found
    rw [writesOf_concat]
    rcases of_getElem?_set found with ⟨rfl, rfl⟩ | ⟨apart, before⟩
    · rw [if_pos rfl]
      exact goesOn _
    · rw [if_neg (Ne.symm apart), List.append_nil]
      exact orderly.obeys other session before

/-- A call fails, and nobody but its client goes on. -/
theorem Orderly.failed (orderly : clients.Orderly) {client : Nat} {task : Task} {call : Call}
    {resume : Except Unavailable call.Reply → Exchange Result}
    (asks : clients.sessions[client]? = some ⟨task, .ask call resume⟩) (error : Unavailable) :
    Orderly { clients with
      sessions := clients.sessions.set client ⟨task, resume (.error error)⟩ } where
  careful := orderly.careful
  known answered member := by
    rw [List.length_set]
    exact orderly.known answered member
  obeys other session found := by
    obtain ⟨_, goesOn, _⟩ := orderly.obeys client _ asks
    rcases of_getElem?_set found with ⟨rfl, rfl⟩ | ⟨_, before⟩
    · exact goesOn error
    · exact orderly.obeys other session before

theorem Orderly.moves {move : Move} {after : Clients} (orderly : clients.Orderly)
    (moves : clients.Moves move after) : after.Orderly := by
  cases moves with
  | came task => exact orderly.came task
  | unanswered _ | unfailed _ => exact orderly
  | answered asks => exact orderly.answered asks
  | failed asks => exact orderly.failed asks _
  | passed ms => exact ⟨orderly.careful, orderly.known, orderly.obeys⟩

theorem Orderly.run (orderly : clients.Orderly) (moves : List Move) :
    (clients.run moves).Orderly := by
  induction moves generalizing clients with
  | nil => exact orderly
  | cons move moves inductionHypothesis =>
    exact inductionHypothesis (orderly.moves (clients.moves move))

theorem Moves.ttl_eq {move : Move} {after : Clients} (moves : clients.Moves move after) :
    after.ttl = clients.ttl := by
  cases moves <;> rfl

theorem ttl_run (moves : List Move) : (clients.run moves).ttl = clients.ttl := by
  induction moves generalizing clients with
  | nil => rfl
  | cons move moves inductionHypothesis =>
    exact inductionHypothesis.trans (clients.moves move).ttl_eq

/-- Whatever store clients come to, however many of them, and however their calls, failures and the
time fall: no call makes a live record give way to a lower one, and an update that says so has
written its record once and for the full time, while one that says otherwise has written nothing. -/
theorem writes_careful_of_start (store : Store) (now : Int) (ttl : Nat) (moves : List Move) :
    let clients := (start store now ttl).run moves
    (∀ answered ∈ clients.journal, answered.Careful) ∧
    ∀ client name record outcome, clients.task client = some (.update name record) →
      clients.result client = some (.ended outcome) →
      clients.writesOf client = Outcome.writes name record ttl outcome := by
  intro clients
  have orderly : clients.Orderly := (orderly_start store now ttl).run moves
  refine ⟨orderly.careful, fun client name record outcome came ended => ?_⟩
  obtain ⟨⟨task, rest⟩, there, rfl⟩ := Option.map_eq_some_iff.mp came
  obtain ⟨session, same, ended⟩ := Option.bind_eq_some_iff.mp ended
  rw [there] at same
  cases same
  have obeys := orderly.obeys client _ there
  cases rest with
  | done result =>
    cases ended
    rw [show clients.ttl = ttl from ttl_run moves] at obeys
    exact obeys
  | ask call resume => cases ended

/-- Two updates of a transaction that both read that it is pending, and of which the one that would
finalize it writes first. -/
def racing : Clients :=
  (start (.empty 1) 0 1000).run
    [.come (.update .zero (.bare .pending)), .answer 0, .answer 0,
      .come (.update .zero (.bare .finalized)), .come (.update .zero (.bare .committed)),
      .answer 1, .answer 2, .answer 1, .answer 2, .answer 2]

theorem writes_careful_of_race :
    racing.writesOf 1 = [⟨Digest.zero.bytes, (StatusRecord.bare .finalized).encode, 1000⟩] ∧
      racing.writesOf 2 = [] ∧
      racing.journal.length = 7 ∧ ∀ answered ∈ racing.journal, answered.Careful := by
  obtain ⟨careful, accounts⟩ := writes_careful_of_start (.empty 1) 0 1000
    [.come (.update .zero (.bare .pending)), .answer 0, .answer 0,
      .come (.update .zero (.bare .finalized)), .come (.update .zero (.bare .committed)),
      .answer 1, .answer 2, .answer 1, .answer 2, .answer 2]
  exact ⟨accounts 1 .zero (.bare .finalized) (.ok .written) (by rfl) (by rfl),
    accounts 2 .zero (.bare .committed) (.ok .raceAbandoned) (by rfl) (by rfl), rfl, careful⟩

end Clients

end StreamLedger.Cache
