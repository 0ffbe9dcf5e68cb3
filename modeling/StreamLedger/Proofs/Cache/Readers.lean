/-
This file is about one update of a transaction among any number of queries, while nobody else
updates the transaction, no call fails, and what is live for the transaction stays live. A query
puts what the ledger says where nothing is live, and it may do so after the update has found nothing
and before it writes. The update then gives up, and the query's record stays. In every other case
the record that is live at the end is not lower than the update's.
-/
import StreamLedger.Proofs.Cache.Clients

namespace StreamLedger.Cache

/-! ### What is live later -/

namespace Store

variable {store : Store} {now later : Int} {key value : Bytes} {ttl : Nat}

/-- Time brings nothing to life. -/
theorem get_later (after : now ≤ later) :
    (store.get later key).1 = none ∨ (store.get later key).1 = (store.get now key).1 := by
  unfold get
  split
  · exact Or.inl rfl
  · split
    · rename_i before
      rw [if_pos (by omega)]
      exact Or.inr rfl
    · exact Or.inl rfl

@[simp]
theorem capacity_answer (call : Call) :
    (store.answer now call).2.capacity = store.capacity := by
  rw [answer_snd]
  split
  · exact capacity_get
  · exact capacity_get

variable (now key value) in
/-- After a call that writes only where nothing is live, what was live is live, or else what the
call has brought. -/
theorem get_setIfAbsent (room : 0 < store.capacity) (lives : 0 < ttl) :
    ((store.setIfAbsent now key value ttl).2.get now key).1 =
      some ((store.get now key).1.getD value) := by
  rw [setIfAbsent, compareAndSet_eq]
  cases live : (store.get now key).1 with
  | none => rw [if_pos rfl, get_write (by rwa [capacity_get]), if_pos lives, Option.getD_none]
  | some bytes => rw [if_neg (Option.some_ne_none bytes), get_get, live, Option.getD_some]

end Store

/-- What lasts and is at most dropped stays as it is. -/
theorem eq_of_lasts {live after : Option Bytes} (lasts : live.isSome → after.isSome)
    (dropped : after = none ∨ after = live) : after = live := by
  rcases dropped with rfl | same
  · cases live with
    | none => rfl
    | some bytes => cases lasts rfl
  · exact same

/-! ### Calls that put nothing but seeds in -/

/-- What is live is what a query brings along from the ledger. -/
def Seeded (seeds : Status → Prop) (live : Option Bytes) : Prop :=
  ∃ status, seeds status ∧ live = some (StatusRecord.bare status).encode

/-- A call is about another transaction, or it is one of a query's. -/
def Call.Harmless (name : Digest) (seeds : Status → Prop) (ttl : Nat) (call : Call) : Prop :=
  call.key ≠ name.bytes ∨ ∃ status, seeds status ∧ call.OfQuery name status ttl

section

variable {name : Digest} {seeds : Status → Prop} {ttl : Nat}

/-- A harmless call changes what is live only where nothing was, and only to a seed. -/
theorem Store.get_answer_of_harmless {store : Store} {now : Int} {call : Call}
    (room : 0 < store.capacity) (lives : 0 < ttl) (harmless : call.Harmless name seeds ttl)
    (lasts : (store.get now name.bytes).1.isSome →
      ((store.answer now call).2.get now name.bytes).1.isSome) :
    ((store.answer now call).2.get now name.bytes).1 = (store.get now name.bytes).1 ∨
      (store.get now name.bytes).1 = none ∧
        Seeded seeds ((store.answer now call).2.get now name.bytes).1 := by
  rcases harmless with other | ⟨status, seeded, get | seed⟩
  · exact Or.inl (eq_of_lasts lasts (store.get_answer_of_ne now other.symm))
  · exact Or.inl (congrArg Prod.fst Store.get_get)
  · have after := Store.get_setIfAbsent now name.bytes (StatusRecord.bare status).encode room lives
    cases live : (store.get now name.bytes).1 with
    | none => exact Or.inr ⟨rfl, status, seeded, by rwa [live] at after⟩
    | some bytes => exact Or.inl (by rwa [live] at after)

end

/-! ### One update and its stages -/

/-- A move brings no second update of the transaction and no failure. -/
def Move.Spares (name : Digest) : Move → Prop
  | .come (.update other _) => other ≠ name
  | .come (.query _ _) | .answer _ | .pass _ => True
  | .fail _ _ => False

instance (name : Digest) : DecidablePred (Move.Spares name)
  | .come (.update other _) => inferInstanceAs (Decidable (other ≠ name))
  | .come (.query _ _) | .answer _ | .pass _ => isTrue trivial
  | .fail _ _ => isFalse id

/-- A query of the transaction comes with a seed. -/
def Move.Seeds (name : Digest) (seeds : Status → Prop) (move : Move) : Prop :=
  ∀ status, move = .come (.query name status) → seeds status

/-- The exchange of a task that a move may bring makes none but harmless calls. -/
theorem Task.exchange_asks {name : Digest} {seeds : Status → Prop} {task : Task}
    (spares : (Move.come task).Spares name) (seeded : (Move.come task).Seeds name seeds)
    (ttl : Nat) : (task.exchange ttl).Asks (Call.Harmless name seeds ttl) := by
  cases task with
  | query other status =>
    refine ((query_asks other status ttl).mono fun call made => ?_).map
    by_cases same : other = name
    · subst same
      exact Or.inr ⟨status, seeded status rfl, made⟩
    · exact Or.inl fun here => same (Octets.ext_bytes (made.key.symm.trans here))
  | update other record =>
    refine ((update_asks other record ttl).mono fun call made => ?_).map
    exact Or.inl fun here => spares (Octets.ext_bytes (made.key.symm.trans here))

/-- How far an update has come. -/
inductive Stage where
  | begins
  /-- It has read these bytes and may write over them. -/
  | writes (seen : Option Bytes)
  /-- The bytes had changed. -/
  | lost
  | ends (outcome : Except Unavailable Outcome)

/-- What is left of an update. -/
def Stage.rest (name : Digest) (record : StatusRecord) (ttl : Nat) :
    Stage → Exchange (Except Unavailable Outcome)
  | begins => update name record ttl
  | writes seen => .replace name record ttl seen
  | lost => .ask (.get name.bytes) fun _ => .done (.ok .raceAbandoned)
  | ends outcome => .done outcome

section

variable {name : Digest} {record : StatusRecord} {seeds : Status → Prop} {ttl : Nat}
  {before live after : Option Bytes}

/-- A readable record is live, and it is not lower than the update's, or else the update gave up
when a seed came in where nothing had been live before. -/
def Kept (record : StatusRecord) (seeds : Status → Prop) (before live : Option Bytes)
    (outcome : Except Unavailable Outcome) : Prop :=
  ∃ cached, readable (.ok live) = some cached ∧
    (record.status ≤ cached.status ∨
      outcome = .ok .raceAbandoned ∧ before = none ∧ ∃ status, seeds status ∧ cached = .bare status)

/-- What is live at a stage, where `before` was live when the update came. -/
def Stage.Holds (record : StatusRecord) (seeds : Status → Prop) (before live : Option Bytes) :
    Stage → Prop
  | begins => live = before ∨ before = none ∧ Seeded seeds live
  | writes seen => (seen = none → before = none) ∧ (live = seen ∨ seen = none ∧ Seeded seeds live)
  | lost => before = none ∧ Seeded seeds live
  | ends outcome => Kept record seeds before live outcome

/-- At every stage a seed may come in where nothing is live. -/
theorem Stage.Holds.seeded {stage : Stage} (holds : stage.Holds record seeds before live)
    (empty : live = none) (seeded : Seeded seeds after) :
    stage.Holds record seeds before after := by
  subst empty
  cases stage with
  | begins =>
    rcases holds with same | ⟨nothing, _⟩
    · exact Or.inr ⟨same.symm, seeded⟩
    · exact Or.inr ⟨nothing, seeded⟩
  | writes seen =>
    obtain ⟨first, same | ⟨nothing, _⟩⟩ := holds
    · exact ⟨first, Or.inr ⟨same.symm, seeded⟩⟩
    · exact ⟨first, Or.inr ⟨nothing, seeded⟩⟩
  | lost =>
    obtain ⟨_, _, _, absurd⟩ := holds
    cases absurd
  | ends outcome =>
    obtain ⟨_, absurd, _⟩ := holds
    cases absurd

variable (name record seeds ttl) in
/-- What an update does with what it has read. -/
theorem Stage.exists_advance {seen : Option Bytes} (first : seen = none → before = none) :
    ∃ next : Stage, Exchange.advance name record ttl seen = next.rest name record ttl ∧
      next.Holds record seeds before seen := by
  have allowed : (writes seen).Holds record seeds before seen := ⟨first, Or.inl rfl⟩
  unfold Exchange.advance
  split
  · rename_i current found
    split
    · rename_i lower
      exact ⟨.ends (.ok .downgradeRejected), rfl, current, found, Or.inl (Status.le_of_lt lower)⟩
    · exact ⟨.writes seen, rfl, allowed⟩
  · exact ⟨.writes seen, rfl, allowed⟩

/-- A call of the update leads it to a next stage. -/
theorem Stage.Holds.answered {stage : Stage} {store : Store} {now : Int}
    (room : 0 < store.capacity) (lives : 0 < ttl)
    (holds : stage.Holds record seeds before (store.get now name.bytes).1) {call : Call}
    {resume : Except Unavailable call.Reply → Exchange (Except Unavailable Outcome)}
    (asks : stage.rest name record ttl = .ask call resume) :
    ∃ next : Stage, resume (.ok (store.answer now call).1) = next.rest name record ttl ∧
      next.Holds record seeds before ((store.answer now call).2.get now name.bytes).1 := by
  cases stage with
  | begins =>
    rw [Stage.rest, update_eq] at asks
    cases asks
    have live : ((store.get now name.bytes).2.get now name.bytes).1 =
        (store.get now name.bytes).1 := congrArg Prod.fst Store.get_get
    have first : (store.get now name.bytes).1 = none → before = none := by
      intro nothing
      rcases holds with same | ⟨empty, _⟩
      · rw [← same, nothing]
      · exact empty
    obtain ⟨next, rest, holds⟩ := Stage.exists_advance name record seeds ttl first
    refine ⟨next, rest, ?_⟩
    change next.Holds _ _ _ ((store.get now name.bytes).2.get now name.bytes).1
    rwa [live]
  | writes seen =>
    cases asks
    obtain ⟨first, here⟩ := holds
    simp only [Store.answer, Store.compareAndSet_eq]
    by_cases same : (store.get now name.bytes).1 = seen
    · rw [if_pos same]
      refine ⟨.ends (.ok .written), rfl, record.kept, ?_, Or.inl (Status.le_refl _)⟩
      rw [Store.get_write (by rwa [Store.capacity_get]), if_pos lives]
      exact Site.readable_encode record
    · rw [if_neg same]
      obtain ⟨rfl, seeded⟩ := here.resolve_left same
      refine ⟨.lost, rfl, first rfl, ?_⟩
      rwa [Store.get_get]
  | lost =>
    cases asks
    obtain ⟨empty, status, seed, live⟩ := holds
    refine ⟨.ends (.ok .raceAbandoned), rfl, .bare status, ?_,
      Or.inr ⟨rfl, empty, status, seed, rfl⟩⟩
    rw [Store.answer, Store.get_get, live]
    exact Site.readable_encode _
  | ends outcome => cases asks

end

/-! ### One update among queries -/

namespace Clients

/-- What is live under a key. -/
def live (clients : Clients) (key : Bytes) : Option Bytes :=
  (clients.store.get clients.now key).1

/-- While the moves are made, what is live under a key neither expires nor is evicted. -/
def Lasting (key : Bytes) : Clients → List Move → Prop
  | _, [] => True
  | clients, move :: moves =>
    ((clients.live key).isSome → ((clients.move move).live key).isSome) ∧
      (clients.move move).Lasting key moves

/-- Whether it lasts can be found out by making the moves. -/
def decideLasting (key : Bytes) :
    (clients : Clients) → (moves : List Move) → Decidable (clients.Lasting key moves)
  | _, [] => isTrue trivial
  | clients, move :: moves =>
    have := decideLasting key (clients.move move) moves
    inferInstanceAs (Decidable (_ ∧ _))

instance (key : Bytes) (clients : Clients) (moves : List Move) :
    Decidable (clients.Lasting key moves) :=
  decideLasting key clients moves

/-- The first client updates a transaction, of which `before` was live, and the calls of all others
are harmless to it. -/
structure Among (name : Digest) (record : StatusRecord) (seeds : Status → Prop)
    (before : Option Bytes) (clients : Clients) : Prop where
  room : 0 < clients.store.capacity
  lives : 0 < clients.ttl
  others : ∀ client (session : Session), client ≠ 0 → clients.sessions[client]? = some session →
    session.rest.Asks (Call.Harmless name seeds clients.ttl)
  writer : ∃ stage : Stage, clients.sessions[0]? =
      some ⟨.update name record, (stage.rest name record clients.ttl).map .ended⟩ ∧
    stage.Holds record seeds before (clients.live name.bytes)

variable {name : Digest} {record : StatusRecord} {seeds : Status → Prop} {before : Option Bytes}
  {clients : Clients}

theorem among_start (store : Store) (now : Int) {ttl : Nat} (room : 0 < store.capacity)
    (lives : 0 < ttl) :
    Among name record seeds (store.get now name.bytes).1
      ((start store now ttl).move (.come (.update name record))) where
  room := room
  lives := lives
  others client session other there := by
    obtain ⟨client, rfl⟩ := Nat.exists_eq_succ_of_ne_zero other
    cases there
  writer := ⟨.begins, rfl, Or.inl rfl⟩

/-- Where what is live is kept, but for a seed that comes in where nothing was, the update's stage
holds on. -/
theorem Among.stage_holds {stage : Stage} {later : Clients}
    (holds : stage.Holds record seeds before (clients.live name.bytes))
    (kept : later.live name.bytes = clients.live name.bytes ∨
      clients.live name.bytes = none ∧ Seeded seeds (later.live name.bytes)) :
    stage.Holds record seeds before (later.live name.bytes) := by
  rcases kept with same | ⟨empty, seeded⟩
  · rwa [same]
  · exact holds.seeded empty seeded

theorem Among.came (among : Among name record seeds before clients) {task : Task}
    (spares : (Move.come task).Spares name) (seeded : (Move.come task).Seeds name seeds) :
    Among name record seeds before
      { clients with sessions := clients.sessions ++ [⟨task, task.exchange clients.ttl⟩] } where
  room := among.room
  lives := among.lives
  others client session other found := by
    rcases of_getElem?_append found with ⟨_, rfl⟩ | earlier
    · exact task.exchange_asks spares seeded clients.ttl
    · exact among.others client session other earlier
  writer := by
    obtain ⟨stage, there, holds⟩ := among.writer
    refine ⟨stage, ?_, holds⟩
    exact (List.getElem?_append_left (List.getElem?_eq_some_iff.mp there).1).trans there

theorem Among.passed (among : Among name record seeds before clients) (ms : Nat)
    (lasts : (clients.live name.bytes).isSome →
      (live { clients with now := clients.now + ms } name.bytes).isSome) :
    Among name record seeds before { clients with now := clients.now + ms } where
  room := among.room
  lives := among.lives
  others := among.others
  writer := by
    obtain ⟨stage, there, holds⟩ := among.writer
    have later : clients.now ≤ clients.now + ms := by omega
    exact ⟨stage, there, stage_holds holds (Or.inl (eq_of_lasts lasts (Store.get_later later)))⟩

section

variable {client : Nat} {task : Task} {call : Call}
  {resume : Except Unavailable call.Reply → Exchange Result} {journal : List Answered}

/-- The update makes its next call. -/
theorem Among.answered_writer (among : Among name record seeds before clients)
    (asks : clients.sessions[0]? = some ⟨task, .ask call resume⟩) :
    Among name record seeds before { clients with
      store := (clients.store.answer clients.now call).2
      sessions := clients.sessions.set 0
        ⟨task, resume (.ok (clients.store.answer clients.now call).1)⟩
      journal } where
  room := by simpa using among.room
  lives := among.lives
  others other session apart found := by
    rcases of_getElem?_set found with ⟨writer, _⟩ | ⟨_, earlier⟩
    · exact absurd writer apart
    · exact among.others other session apart earlier
  writer := by
    obtain ⟨stage, there, holds⟩ := among.writer
    rw [there] at asks
    cases rest : stage.rest name record clients.ttl with
    | done result =>
      rw [rest] at asks
      cases asks
    | ask made goesOn =>
      rw [rest] at asks
      cases asks
      obtain ⟨next, nextRest, holds⟩ := holds.answered among.room among.lives rest
      refine ⟨next, ?_, holds⟩
      rw [List.getElem?_set_self (List.getElem?_eq_some_iff.mp there).1]
      dsimp only
      rw [nextRest]

/-- Somebody else makes a harmless call. -/
theorem Among.answered_other (among : Among name record seeds before clients) (other : client ≠ 0)
    (asks : clients.sessions[client]? = some ⟨task, .ask call resume⟩)
    (lasts : (clients.live name.bytes).isSome →
      ((clients.store.answer clients.now call).2.get clients.now name.bytes).1.isSome) :
    Among name record seeds before { clients with
      store := (clients.store.answer clients.now call).2
      sessions := clients.sessions.set client
        ⟨task, resume (.ok (clients.store.answer clients.now call).1)⟩
      journal } where
  room := by simpa using among.room
  lives := among.lives
  others reader session apart found := by
    rcases of_getElem?_set found with ⟨rfl, rfl⟩ | ⟨_, earlier⟩
    · exact (among.others _ _ other asks).2 _
    · exact among.others reader session apart earlier
  writer := by
    obtain ⟨harmless, _⟩ := among.others _ _ other asks
    obtain ⟨stage, there, holds⟩ := among.writer
    have kept := Store.get_answer_of_harmless among.room among.lives harmless lasts
    exact ⟨stage, (List.getElem?_set_ne other).trans there, stage_holds holds kept⟩

end

theorem Among.moves {move : Move} {after : Clients}
    (among : Among name record seeds before clients) (spares : move.Spares name)
    (seeded : move.Seeds name seeds)
    (lasts : (clients.live name.bytes).isSome → (after.live name.bytes).isSome)
    (moves : clients.Moves move after) : Among name record seeds before after := by
  cases moves with
  | came task => exact among.came spares seeded
  | unanswered _ => exact among
  | @answered client _ _ _ asks =>
    by_cases writer : client = 0
    · subst writer
      exact among.answered_writer asks
    · exact among.answered_other writer asks lasts
  | unfailed _ | failed _ => exact spares.elim
  | passed ms => exact among.passed ms lasts

theorem Among.run (among : Among name record seeds before clients) {moves : List Move}
    (spares : ∀ move ∈ moves, move.Spares name) (seeded : ∀ move ∈ moves, move.Seeds name seeds)
    (lasting : clients.Lasting name.bytes moves) :
    Among name record seeds before (clients.run moves) := by
  induction moves generalizing clients with
  | nil => exact among
  | cons move moves inductionHypothesis =>
    obtain ⟨lasts, lasting⟩ := lasting
    have moved := among.moves (spares move List.mem_cons_self) (seeded move List.mem_cons_self)
      lasts (clients.moves move)
    exact inductionHypothesis moved
      (fun later member => spares later (List.mem_cons_of_mem _ member))
      (fun later member => seeded later (List.mem_cons_of_mem _ member)) lasting

/-- An update that is at its end has left a record that is not lower, or else it has lost to a
seed. -/
theorem Among.kept (among : Among name record seeds before clients)
    {outcome : Except Unavailable Outcome} (ended : clients.result 0 = some (.ended outcome)) :
    Kept record seeds before (clients.live name.bytes) outcome := by
  obtain ⟨stage, there, holds⟩ := among.writer
  rw [result, there, Option.bind_some] at ended
  cases stage with
  | begins =>
    rw [Stage.rest, update_eq] at ended
    cases ended
  | writes seen => cases ended
  | lost => cases ended
  | ends outcome =>
    cases ended
    exact holds

/-- While an update is made among any number of queries, with no other update of the transaction, no
failure, and nothing lost that is live for the transaction, the update leaves a readable record that
is not lower than its own. Entries live for a positive time, as otherwise nothing written is ever
live. The one exception is an update that gives up a race: then nothing was
live for the transaction before, and what stays is the lower status that a query has brought. -/
theorem update_kept_among_queries (store : Store) (now : Int) (ttl : Nat) (name : Digest)
    (record : StatusRecord) (moves : List Move) (outcome : Except Unavailable Outcome)
    (room : 0 < store.capacity) (lives : 0 < ttl) (spares : ∀ move ∈ moves, move.Spares name)
    (lasting : ((start store now ttl).move (.come (.update name record))).Lasting name.bytes moves)
    (ended : (((start store now ttl).move (.come (.update name record))).run moves).result 0 =
      some (.ended outcome)) :
    let final := ((start store now ttl).move (.come (.update name record))).run moves
    ∃ cached, final.store.record final.now name.bytes = some cached ∧
      (record.status ≤ cached.status ∨
        outcome = .ok .raceAbandoned ∧ (store.get now name.bytes).1 = none ∧
          cached.status < record.status ∧
          ∃ status, .come (.query name status) ∈ moves ∧ cached = .bare status) := by
  intro final
  have among : Among name record (fun status => .come (.query name status) ∈ moves)
      (store.get now name.bytes).1 final :=
    (among_start store now room lives).run spares
      (fun move member status same => same ▸ member) lasting
  obtain ⟨cached, found, notLower | ⟨lost, empty, seed⟩⟩ := among.kept ended
  · exact ⟨cached, found, Or.inl notLower⟩
  · refine ⟨cached, found, ?_⟩
    by_cases lower : cached.status < record.status
    · exact Or.inr ⟨lost, empty, lower, seed⟩
    · exact Or.inl (Status.not_lt.mp lower)

/-- An update of a transaction that the cache knows nothing of. -/
def updating : Clients :=
  (start (.empty 1) 0 1000).move (.come (.update .zero (.bare .pending)))

/-- If a query finds nothing and the update writes before it, the update's record stays. -/
theorem update_kept_before_query :
    ∃ cached, (updating.run [.come (.query .zero .unknown), .answer 1, .answer 0, .answer 0,
        .answer 1, .answer 1]).store.record 0 Digest.zero.bytes = some cached ∧
      Status.pending ≤ cached.status := by
  obtain ⟨cached, found, notLower | ⟨lost, _⟩⟩ := update_kept_among_queries (.empty 1) 0 1000 .zero
    (.bare .pending) [.come (.query .zero .unknown), .answer 1, .answer 0, .answer 0, .answer 1,
      .answer 1] (.ok .written) (by decide) (by decide) (by decide) (by decide) rfl
  · exact ⟨cached, found, notLower⟩
  · cases lost

/-- If the query writes between the update's two calls, then what is live is lower than the update's
record when both are at their end. -/
theorem update_lost_to_query :
    let moves : List Move :=
      [.come (.query .zero .unknown), .answer 1, .answer 0, .answer 1, .answer 0, .answer 0]
    let final := updating.run moves
    (∀ move ∈ moves, move.Spares .zero) ∧ updating.Lasting Digest.zero.bytes moves ∧
      final.result 0 = some (.ended (.ok .raceAbandoned)) ∧
      final.result 1 = some (.answered (.bare .unknown)) ∧
      final.store.record final.now Digest.zero.bytes = some (.bare .unknown) ∧
      ¬ (StatusRecord.bare .pending).status ≤ (StatusRecord.bare .unknown).status :=
  ⟨by decide, by decide, rfl, rfl, rfl, by decide⟩

end Clients

end StreamLedger.Cache
