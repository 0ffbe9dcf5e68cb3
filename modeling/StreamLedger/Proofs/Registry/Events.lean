/-
This file makes histories of a registry into data and says what each event does to it. The cache
of a registry that started empty is tidy: it has room, no call to it fails, everything in it is a
record, and nothing in it lives longer than from now on. In a tidy cache a query answers with the
live record, or else for the ledger, and an update either is refused by the live record or is
written.
-/
import StreamLedger.Proofs.Cache
import StreamLedger.Registry.Service

namespace StreamLedger

namespace Registry

/-! ### Events -/

/-- What may happen to a registry. -/
inductive Event where
  | submit (transaction : Transaction)
  | markPending (name : Digest)
  | setStatus (name : Digest) (record : StatusRecord)
  | query (name : Digest)
  /-- The ledger makes its next block, and nobody publishes it. -/
  | propose (maxExponent : Nat)
  | round
  | advance (milliseconds : Nat)
deriving DecidableEq

section

variable {L : Type} [Ledger L] (H : DigestFunction)

def Event.run (registry : Registry L) : Event → Registry L
  | .submit transaction => (registry.submit transaction).2
  | .markPending name => registry.markPending name
  | .setStatus name record => (registry.setStatus name record).2
  | .query name => (registry.status name).2
  | .propose maxExponent =>
    match Ledger.propose H maxExponent (Int64.ofInt registry.now) registry.ledger with
    | .ok (_, ledger) => { registry with ledger }
    | .error _ => registry
  | .round => (registry.round H).2
  | .advance milliseconds => registry.advance H milliseconds

/-- Lets events happen one after the other. -/
def runEvents (registry : Registry L) (events : List Event) : Registry L :=
  events.foldl (Event.run H) registry

end

/-! ### Tidy caches -/

section

variable {L : Type} {registry : Registry L} {name : Digest} {record : StatusRecord}

/-- The live record of a transaction, if there is one. -/
def peek (registry : Registry L) (name : Digest) : Option StatusRecord :=
  registry.cache.peek registry.now name

/-- Nothing disturbs the cache, and what stands in it was written as a record and not too long
from now. No service runs rounds by itself. -/
structure Tidy (registry : Registry L) : Prop where
  idle : registry.service = none
  quiet : registry.cache.faults = Cache.Faults.nothing
  room : 0 < registry.cache.store.capacity
  records : ∀ entry ∈ registry.cache.store.entries, ∃ record : StatusRecord,
    entry.value = record.encode
  recent : ∀ entry ∈ registry.cache.store.entries,
    entry.expiresAt ≤ registry.now + registry.cache.ttl

theorem tidy_start (ledger : L) (maxExponent capacity ttl : Nat) (log : List Log.Answer) (now : Int)
    (room : 0 < capacity) : Tidy (start ledger maxExponent capacity ttl log now) where
  idle := rfl
  quiet := rfl
  room := room
  records entry member := by cases member
  recent entry member := by cases member

namespace Tidy

/-- Where no record can be read, nothing is live. -/
theorem get_eq_none_iff (tidy : Tidy registry) :
    (registry.cache.store.get registry.now name.bytes).1 = none ↔ registry.peek name = none := by
  simp only [peek, Cache.Site.peek]
  cases live : (registry.cache.store.get registry.now name.bytes).1 with
  | none => simp [Cache.readable]
  | some bytes =>
    obtain ⟨entry, member, _, rfl, _⟩ := Cache.Store.of_get_eq_some live
    obtain ⟨record, encoded⟩ := tidy.records entry member
    rw [encoded, Cache.Site.readable_encode]
    simp

/-- A live record goes back to an entry that holds it. -/
theorem of_peek_eq_some (tidy : Tidy registry) (found : registry.peek name = some record) :
    ∃ entry ∈ registry.cache.store.entries, entry.key = name.bytes ∧
      registry.now < entry.expiresAt ∧
      ∃ written : StatusRecord, entry.value = written.encode ∧ written.kept = record := by
  simp only [peek, Cache.Site.peek] at found
  cases live : (registry.cache.store.get registry.now name.bytes).1 with
  | none =>
    rw [live] at found
    cases found
  | some bytes =>
    obtain ⟨entry, member, key, rfl, before⟩ := Cache.Store.of_get_eq_some live
    obtain ⟨written, encoded⟩ := tidy.records entry member
    rw [live, encoded, Cache.Site.readable_encode] at found
    exact ⟨entry, member, key, before, written, encoded, Option.some.inj found⟩

/-- Nothing is live in a cache whose entries live for no time. -/
theorem ttl_pos (tidy : Tidy registry) (found : registry.peek name = some record) :
    0 < registry.cache.ttl := by
  obtain ⟨entry, member, _, before, _⟩ := tidy.of_peek_eq_some found
  have recent := tidy.recent entry member
  omega

/-! ### Queries and updates -/

section

variable [Ledger L]

theorem status_of_some (tidy : Tidy registry) (found : registry.peek name = some record) :
    registry.status name =
      (record, { registry with cache := registry.cache.looked registry.now name }) := by
  simp only [status, ask]
  rw [Cache.Site.run_query_of_peek tidy.quiet found]

theorem status_of_none (tidy : Tidy registry) (missing : registry.peek name = none) :
    registry.status name = (.bare (registry.ledgerStatus name),
      { registry with
        cache :=
          registry.cache.stamped registry.now name (.bare (registry.ledgerStatus name)) }) := by
  simp only [status, ask]
  rw [Cache.Site.run_query_of_none tidy.quiet (tidy.get_eq_none_iff.mpr missing)]

/-- The answer to a query is the live record, or else what the ledger says. -/
theorem status_fst (tidy : Tidy registry) :
    (registry.status name).1 = (registry.peek name).getD (.bare (registry.ledgerStatus name)) := by
  cases found : registry.peek name with
  | none => rw [tidy.status_of_none found, Option.getD_none]
  | some record => rw [tidy.status_of_some found, Option.getD_some]

end

theorem tryStatus_of_lt (tidy : Tidy registry) {current : StatusRecord}
    (found : registry.peek name = some current) (lower : record.status < current.status) :
    registry.tryStatus name record =
      { registry with cache := registry.cache.looked registry.now name } := by
  simp only [tryStatus, setStatus, ask]
  rw [Cache.Site.run_update_of_lt tidy.quiet found lower]

theorem tryStatus_of_not_lt (tidy : Tidy registry)
    (allowed : ∀ current, registry.peek name = some current → ¬ record.status < current.status) :
    registry.tryStatus name record =
      { registry with cache := registry.cache.stamped registry.now name record } := by
  simp only [tryStatus, setStatus, ask]
  rw [Cache.Site.run_update_of_not_lt tidy.quiet allowed]

/-! ### Tidiness is kept -/

/-- The ledger, the log and the time may go on. -/
theorem later (tidy : Tidy registry) {after : Registry L} (idle : after.service = none)
    (cache : after.cache = registry.cache) (passed : registry.now ≤ after.now) : Tidy after := by
  refine ⟨idle, ?_, ?_, ?_, fun entry member => ?_⟩
  · rw [cache]
    exact tidy.quiet
  · rw [cache]
    exact tidy.room
  · rw [cache]
    exact tidy.records
  · rw [cache] at member ⊢
    have recent := tidy.recent entry member
    omega

theorem looked (tidy : Tidy registry) (name : Digest) :
    Tidy { registry with cache := registry.cache.looked registry.now name } where
  idle := tidy.idle
  quiet := tidy.quiet
  room := by
    simp only [Cache.Site.looked, Cache.Store.capacity_get]
    exact tidy.room
  records entry member := tidy.records entry (Cache.Store.of_mem_get member)
  recent entry member := tidy.recent entry (Cache.Store.of_mem_get member)

theorem stamped (tidy : Tidy registry) (name : Digest) (record : StatusRecord) :
    Tidy { registry with cache := registry.cache.stamped registry.now name record } where
  idle := tidy.idle
  quiet := tidy.quiet
  room := by
    simp only [Cache.Site.stamped, Cache.Store.write, Cache.Store.place, Cache.Store.capacity_get]
    exact tidy.room
  records entry member := by
    rcases Cache.Store.of_mem_write member with rfl | ⟨member, _⟩
    · exact ⟨record, rfl⟩
    · exact tidy.records entry (Cache.Store.of_mem_get member)
  recent entry member := by
    rcases Cache.Store.of_mem_write member with rfl | ⟨member, _⟩
    · exact Int.le_refl _
    · exact tidy.recent entry (Cache.Store.of_mem_get member)

theorem tryStatus (tidy : Tidy registry) (name : Digest) (record : StatusRecord) :
    Tidy (registry.tryStatus name record) := by
  by_cases refused : ∃ current, registry.peek name = some current ∧ record.status < current.status
  · obtain ⟨current, found, lower⟩ := refused
    rw [tidy.tryStatus_of_lt found lower]
    exact tidy.looked name
  · have allowed : ∀ current, registry.peek name = some current →
        ¬ record.status < current.status := fun current found lower =>
      refused ⟨current, found, lower⟩
    rw [tidy.tryStatus_of_not_lt allowed]
    exact tidy.stamped name record

theorem tell (tidy : Tidy registry) (news : List (Digest × StatusRecord)) :
    Tidy (registry.tell news) := by
  induction news generalizing registry with
  | nil => exact tidy
  | cons item rest inductionHypothesis => exact inductionHypothesis (tidy.tryStatus item.1 item.2)

end Tidy

theorem tell_cons (registry : Registry L) (item : Digest × StatusRecord)
    (rest : List (Digest × StatusRecord)) :
    registry.tell (item :: rest) = (registry.tryStatus item.1 item.2).tell rest := rfl

theorem conclude_singleton {α : Type} (result : α) (registry : Registry L) (name : Digest)
    (record : StatusRecord) :
    Settled.conclude ⟨result, registry, [(name, record)]⟩ =
      (result, registry.tryStatus name record) := rfl

/-- Telling the cache leaves everything else as it is. -/
theorem tell_eq (registry : Registry L) (news : List (Digest × StatusRecord)) :
    registry.tell news = { registry with cache := (registry.tell news).cache } := by
  induction news generalizing registry with
  | nil => rfl
  | cons item rest inductionHypothesis =>
    rw [tell_cons, inductionHypothesis]
    rfl

end

/-! ### Rounds -/

section

variable {L : Type} [Ledger L] {H : DigestFunction} {registry : Registry L}

/-- The ways in which a round that no other round disturbs may end. -/
inductive Rounds (H : DigestFunction) (registry : Registry L) : Registry L → Prop
  /-- The ledger has refused to make a block. -/
  | refused : Rounds H registry registry
  /-- No transaction waits. -/
  | nothing {ledger : L}
      (proposed : Ledger.propose H registry.maxExponent (Int64.ofInt registry.now) registry.ledger =
        .ok (none, ledger)) :
      Rounds H registry { registry with ledger }
  /-- The log or the ledger has refused the block. -/
  | unpublished {proposal : Proposal} {ledger : L} (delay : Nat)
      (proposed : Ledger.propose H registry.maxExponent (Int64.ofInt registry.now) registry.ledger =
        .ok (some proposal, ledger)) :
      Rounds H registry
        { registry with ledger, log := registry.log.tail, now := registry.now + delay }
  | published {proposal : Proposal} {ledger changed : L} {publication : Publication} (delay : Nat)
      (metrics : Metrics)
      (proposed : Ledger.propose H registry.maxExponent (Int64.ofInt registry.now) registry.ledger =
        .ok (some proposal, ledger))
      (answered : (registry.log.head?.getD Log.Answer.ofLocalLog).verdict.publication H
        proposal.header = .ok publication)
      (finalized : Ledger.finalize ledger (proposal.digest H) publication = .ok changed) :
      Rounds H registry
        { Registry.tell
            { registry with
              ledger := changed, log := registry.log.tail, now := registry.now + delay }
            (proposal.transactions.map fun name => (name, .bare .finalized)) with
          metrics }

theorem serve_of_idle (idle : registry.service = none) (limit : Int) :
    registry.serve H limit = registry := by
  unfold serve
  rw [idle]

theorem rounds (idle : registry.service = none) : Rounds H registry (registry.round H).2 := by
  simp only [round, beginRound, offer, handOver]
  cases proposed : Ledger.propose H registry.maxExponent (Int64.ofInt registry.now)
      registry.ledger with
  | error error => exact .refused
  | ok result =>
    obtain ⟨proposal, ledger⟩ := result
    cases proposal with
    | none => exact .nothing proposed
    | some proposal =>
      simp only
      rw [serve_of_idle (by exact idle)]
      simp only [finishRound, settle]
      cases answered : (registry.log.head?.getD Log.Answer.ofLocalLog).verdict.publication H
          proposal.header with
      | error refusal => exact .unpublished _ proposed
      | ok publication =>
        simp only
        cases finalized : Ledger.finalize ledger (proposal.digest H) publication with
        | error error => exact .unpublished _ proposed
        | ok changed => exact .published _ _ proposed answered finalized

/-! ### What an event changes -/

/-- A round that begins takes from the ledger and from the log. -/
theorem exists_beginRound_eq (registry : Registry L) :
    ∃ ledger log, (registry.beginRound H).2 = { registry with ledger, log } := by
  simp only [beginRound, offer, handOver]
  cases Ledger.propose H registry.maxExponent (Int64.ofInt registry.now) registry.ledger with
  | error error => exact ⟨registry.ledger, registry.log, rfl⟩
  | ok result =>
    obtain ⟨proposal, ledger⟩ := result
    cases proposal with
    | none => exact ⟨ledger, registry.log, rfl⟩
    | some proposal => exact ⟨ledger, registry.log.tail, rfl⟩

/-- Where no service runs, nothing comes between the beginning of a round and its end. -/
theorem round_of_idle (idle : registry.service = none) :
    registry.round H =
      match registry.beginRound H with
      | (.error error, begun) => (.error error, begun)
      | (.ok none, begun) => (.ok none, begun)
      | (.ok (some round), begun) =>
        let (result, ended) := finishRound H { begun with now := round.answered } round
        (result.map some, ended) := by
  obtain ⟨ledger, log, same⟩ := registry.exists_beginRound_eq (H := H)
  rw [round]
  cases began : registry.beginRound H with
  | mk result begun =>
    rw [began] at same
    have unserved : begun.service = none := (congrArg (·.service) same).trans idle
    match result with
    | .error error | .ok none => rfl
    | .ok (some round) =>
      simp only [serve_of_idle unserved]
      cases finishRound H { begun with now := round.answered } round with
      | mk result ended => cases result <;> rfl

/-- A transaction that comes in changes the ledger and the cache. -/
theorem exists_submit_eq (registry : Registry L) (transaction : Transaction) :
    ∃ ledger cache, (registry.submit transaction).2 = { registry with ledger, cache } := by
  simp only [submit, Settled.conclude, accept]
  split
  · rename_i ledger stored
    exact ⟨ledger, _, tell_eq _ _⟩
  · split
    · exact ⟨registry.ledger, _, tell_eq _ _⟩
    · exact ⟨registry.ledger, registry.cache, rfl⟩

theorem Tidy.query (tidy : Tidy registry) (name : Digest) : Tidy (registry.status name).2 := by
  cases found : registry.peek name with
  | none =>
    rw [tidy.status_of_none found]
    exact tidy.stamped name _
  | some record =>
    rw [tidy.status_of_some found]
    exact tidy.looked name

theorem Tidy.submit (tidy : Tidy registry) (transaction : Transaction) :
    Tidy (registry.submit transaction).2 := by
  unfold Registry.submit accept
  split
  · rename_i ledger stored
    have after : Tidy { registry with ledger } := tidy.later tidy.idle rfl (Int.le_refl _)
    exact after.tell _
  · split
    · exact tidy.tell _
    · exact tidy

theorem Tidy.round (tidy : Tidy registry) : Tidy (registry.round H).2 := by
  have ending := show Rounds H registry (registry.round H).2 from rounds tidy.idle
  generalize (registry.round H).2 = after at ending ⊢
  cases ending with
  | refused => exact tidy
  | nothing proposed => exact tidy.later tidy.idle rfl (Int.le_refl _)
  | unpublished delay proposed => exact tidy.later tidy.idle rfl (by simp only; omega)
  | @published _ _ changed _ delay metrics proposed answered finalized =>
    have after : Tidy { registry with
        ledger := changed, log := registry.log.tail, now := registry.now + delay } :=
      tidy.later tidy.idle rfl (by simp only; omega)
    exact (after.tell _).later (after.tell _).idle rfl (Int.le_refl _)

theorem Tidy.run (tidy : Tidy registry) (event : Event) : Tidy (event.run H registry) := by
  cases event with
  | submit transaction => exact tidy.submit transaction
  | markPending name => exact tidy.tryStatus name _
  | setStatus name record => exact tidy.tryStatus name record
  | query name => exact tidy.query name
  | propose maxExponent =>
    simp only [Event.run]
    split
    · exact tidy.later tidy.idle rfl (Int.le_refl _)
    · exact tidy
  | round => exact tidy.round
  | advance milliseconds =>
    simp only [Event.run, advance]
    rw [serve_of_idle tidy.idle]
    exact tidy.later tidy.idle rfl (by simp only; omega)

theorem Tidy.runEvents (tidy : Tidy registry) (events : List Event) :
    Tidy (registry.runEvents H events) := by
  induction events generalizing registry with
  | nil => exact tidy
  | cons event rest inductionHypothesis => exact inductionHypothesis (tidy.run event)

end

end Registry

end StreamLedger
