/-
This file proves that the cache of a registry agrees with its ledger. Every entry of the cache,
live or not, says what the ledger says of its transaction, or else that a transaction which the
ledger does not know is pending, or has failed for the reason it was last refused for. Each event
that changes what the ledger says of a transaction, or why it was refused, writes that transaction's
entry anew, and a full cache only loses entries. So a query answers for the ledger, whether it finds
an entry or not.
-/
import StreamLedger.Proofs.Ledger.View
import StreamLedger.Proofs.Registry.Trace

namespace StreamLedger

/-! ### Messages -/

theorem append_ne_empty {first : String} (second : String) (nonempty : first ≠ "") :
    first ++ second ≠ "" :=
  fun empty => nonempty (String.append_eq_empty_iff.mp empty).1

/-- No refusal goes without a message. -/
theorem LedgerError.message_ne_empty (error : LedgerError) : error.message ≠ "" := by
  cases error with
  | outOfOrder stream expected actual =>
    show "transaction on stream " ++ _ ++ _ ++ _ ++ _ ++ _ ≠ ""
    exact append_ne_empty _ (append_ne_empty _ (append_ne_empty _ (append_ne_empty _
      (append_ne_empty _ (by decide)))))
  | duplicate transaction =>
    show "transaction " ++ _ ++ _ ≠ ""
    exact append_ne_empty _ (append_ne_empty _ (by decide))
  | notPending block =>
    show "block " ++ _ ++ _ ≠ ""
    exact append_ne_empty _ (append_ne_empty _ (by decide))
  | unknownBlock block => exact append_ne_empty _ (by decide)
  | merkle error => exact append_ne_empty _ (by decide)
  | store error => exact append_ne_empty _ (by decide)
  | corrupted corruption => exact append_ne_empty _ (by decide)

namespace Registry

/-! ### What a cached record may say -/

/-- A record says what the ledger says, or that a transaction the ledger does not know is pending
or has failed for this reason. -/
inductive Agrees : (ledgerStatus : Status) → (rejection : Option String) → StatusRecord → Prop
  | bare (status : Status) (rejection : Option String) : Agrees status rejection (.bare status)
  | pending (rejection : Option String) : Agrees .unknown rejection (.bare .pending)
  | failed (message : String) : Agrees .unknown (some message) ⟨.failed, some message⟩

theorem Agrees.eq_bare {status : Status} {rejection : Option String} {record : StatusRecord}
    (agrees : Agrees status rejection record) (known : status ≠ .unknown) :
    record = .bare status := by
  cases agrees with
  | bare => rfl
  | pending => exact absurd rfl known
  | failed => exact absurd rfl known

/-- Nothing is said of an unknown transaction that is beyond a failure. -/
theorem Agrees.le_failed {rejection : Option String} {record : StatusRecord}
    (agrees : Agrees .unknown rejection record) : record.status ≤ .failed := by
  cases agrees with
  | bare => exact Status.unknown_le _
  | pending => decide
  | failed => exact Status.not_lt.mp (Status.lt_irrefl _)

/-- Every entry agrees with the ledger and the rejections, except for some transactions. -/
def CacheAgrees (ledger : IndexedLedger) (rejections : List (Digest × String))
    (exceptions : List Digest) (site : Cache.Site) : Prop :=
  ∀ entry ∈ site.store.entries, ∃ (name : Digest) (record : StatusRecord),
    entry.key = name.bytes ∧ entry.value = record.encode ∧
      (name ∈ exceptions ∨ Agrees (ledger.status name) (rejections.lookup name) record.kept)

namespace CacheAgrees

variable {ledger changed : IndexedLedger} {rejections others : List (Digest × String)}
  {exceptions : List Digest} {site : Cache.Site} {now : Int} {name : Digest} {record : StatusRecord}

theorem looked (agrees : CacheAgrees ledger rejections exceptions site) :
    CacheAgrees ledger rejections exceptions (site.looked now name) :=
  fun entry member => agrees entry (Cache.Store.of_mem_get member)

/-- Writing a transaction's entry anew settles it. -/
theorem stamped (agrees : CacheAgrees ledger rejections (name :: exceptions) site)
    (written : Agrees (ledger.status name) (rejections.lookup name) record.kept) :
    CacheAgrees ledger rejections exceptions (site.stamped now name record) := by
  intro entry member
  rcases Cache.Store.of_mem_write member with rfl | ⟨member, different⟩
  · exact ⟨name, record, rfl, rfl, Or.inr written⟩
  · obtain ⟨other, otherRecord, key, value, holds⟩ := agrees entry (Cache.Store.of_mem_get member)
    refine ⟨other, otherRecord, key, value, holds.imp_left fun excepted => ?_⟩
    rcases List.mem_cons.mp excepted with rfl | excepted
    · exact absurd key different
    · exact excepted

/-- Where nothing else is said of a transaction, its entry goes on to agree. -/
theorem mono (agrees : CacheAgrees ledger rejections [] site)
    (same : ∀ name record, name ∉ exceptions →
      Agrees (ledger.status name) (rejections.lookup name) record →
        Agrees (changed.status name) (others.lookup name) record) :
    CacheAgrees changed others exceptions site := by
  intro entry member
  obtain ⟨name, record, key, value, holds⟩ := agrees entry member
  refine ⟨name, record, key, value, ?_⟩
  by_cases excepted : name ∈ exceptions
  · exact Or.inl excepted
  · exact Or.inr (same name _ excepted (holds.resolve_left List.not_mem_nil))

theorem cons (agrees : CacheAgrees ledger rejections [] site) :
    CacheAgrees ledger rejections [name] site :=
  agrees.mono fun _ _ _ holds => holds

variable {L : Type} {registry : Registry L}

/-- What is live of a transaction agrees. -/
theorem of_peek (agrees : CacheAgrees ledger rejections [] registry.cache) (tidy : Tidy registry)
    (found : registry.peek name = some record) :
    Agrees (ledger.status name) (rejections.lookup name) record := by
  obtain ⟨entry, member, key, _, written, value, rfl⟩ := tidy.of_peek_eq_some found
  obtain ⟨other, otherRecord, otherKey, otherValue, holds⟩ := agrees entry member
  obtain rfl : name = other := Octets.ext_bytes (key.symm.trans otherKey)
  have same : written.kept = otherRecord.kept := by
    have decoded := StatusRecord.decode_encode written
    rw [← value, otherValue, StatusRecord.decode_encode] at decoded
    exact (Except.ok.inj decoded).symm
  rw [same]
  exact holds.resolve_left List.not_mem_nil

/-- An update that nothing live forbids settles the transaction's entry. -/
theorem tryStatus (agrees : CacheAgrees ledger rejections (name :: exceptions) registry.cache)
    (tidy : Tidy registry)
    (allowed : ∀ current, registry.peek name = some current → current.status ≤ record.status)
    (written : Agrees (ledger.status name) (rejections.lookup name) record.kept) :
    CacheAgrees ledger rejections exceptions (registry.tryStatus name record).cache := by
  rw [tidy.tryStatus_of_not_lt fun current found => Status.not_lt.mpr (allowed current found)]
  exact agrees.stamped written

/-- Updates to the highest status settle the entries of all their transactions. -/
theorem tell_finalized {names : List Digest}
    (agrees : CacheAgrees ledger rejections names registry.cache) (tidy : Tidy registry)
    (finalized : ∀ name ∈ names, ledger.status name = .finalized) :
    CacheAgrees ledger rejections []
      (registry.tell (names.map fun name => (name, .bare .finalized))).cache := by
  induction names generalizing registry with
  | nil => exact agrees
  | cons name rest inductionHypothesis =>
    rw [List.map_cons, tell_cons]
    refine inductionHypothesis (agrees.tryStatus tidy (fun current _ => ?_) ?_)
      (tidy.tryStatus name _) fun other member => finalized other (List.mem_cons_of_mem _ member)
    · exact Status.le_finalized _
    · rw [finalized name List.mem_cons_self]
      exact .bare _ _

end CacheAgrees

/-! ### What a trace shows -/

namespace Trace

section

variable {H : DigestFunction} {L : Type} [Ledger L] {view : Ledger.View H L} {trace : Trace L}
  {indexed : IndexedLedger}

/-- The ledger of the trace is seen as a ledger in memory, and everything agrees with that. -/
structure Shows (view : Ledger.View H L) (trace : Trace L) (indexed : IndexedLedger) : Prop where
  tidy : Tidy trace.registry
  logFits : ∀ answer ∈ trace.registry.log, AnswerFits answer
  sees : view.Sees trace.registry.ledger indexed
  stored : indexed.transactions = trace.stored.reverse
  agrees : CacheAgrees indexed trace.rejections [] trace.registry.cache
  /-- A round that waits has the block that the ledger still offers. -/
  offers : ∀ round, trace.waiting = some round → indexed.Offers round.proposal ∧
    ∀ publication, round.answer = .ok publication → publication.Fits

namespace Shows

theorem ledgerStatus_eq (shows : Shows view trace indexed) (name : Digest) :
    trace.registry.ledgerStatus name = indexed.status name := by
  simp only [ledgerStatus, view.status_eq shows.sees name]

theorem size (shows : Shows view trace indexed) :
    indexed.transactions.length = trace.stored.length := by
  rw [shows.stored, List.length_reverse]

theorem small (shows : Shows view trace indexed) (fits : trace.Fits) :
    indexed.transactions.length < 2 ^ 64 := by
  rw [shows.size]
  exact fits.1

theorem hasStored_iff (shows : Shows view trace indexed) (name : Digest) :
    trace.HasStored name ↔ indexed.status name ≠ .unknown := by
  have sound := view.sound shows.sees
  rw [Ne, IndexedLedger.status_eq_unknown_iff]
  constructor
  · rintro ⟨transaction, member, rfl⟩ absent
    rw [← List.mem_reverse, ← shows.stored] at member
    obtain ⟨position, standing⟩ := List.mem_iff_getElem?.mp member
    have found := (sound.positions transaction.digest position).mpr (by rw [standing]; rfl)
    rw [absent] at found
    cases found
  · intro known
    obtain ⟨position, found⟩ := Option.ne_none_iff_exists'.mp known
    obtain ⟨transaction, standing, digest⟩ :=
      Option.map_eq_some_iff.mp ((sound.positions name position).mp found)
    refine ⟨transaction, ?_, digest⟩
    rw [← List.mem_reverse, ← shows.stored]
    exact List.mem_of_getElem? standing

/-- What a query answers by a clock without end is reported. -/
theorem reports (shows : Shows view trace indexed) (horizon : Int) {name : Digest}
    {record : StatusRecord}
    (answers : (trace.registry.peek name).getD (.bare (indexed.status name)) = record) :
    trace.Reports horizon name record := by
  rw [← shows.ledgerStatus_eq] at answers
  rw [Reports, shows.tidy.statusWithin_fst, answers]

/-- What ends early enough returns. -/
theorem returns (shows : Shows view trace indexed) (horizon : Int) : trace.Returns H horizon where
  step event _ early := (stepWithin_timely shows.tidy horizon event).eq_ok early
  finished round _ early := (finishedWithin_timely shows.tidy horizon round).eq_ok early

/-- In a registry that starts empty everything agrees. -/
theorem start {ledger : L} (seen : view.Sees ledger .empty) (maxExponent : Nat) {capacity : Nat}
    (room : 0 < capacity) (ttl : Nat) {log : List Log.Answer}
    (logFits : ∀ answer ∈ log, AnswerFits answer) (now : Int) :
    Shows view ⟨.start ledger maxExponent capacity ttl log now, none, [], []⟩ .empty where
  tidy := tidy_start ledger maxExponent capacity ttl log now room
  logFits := logFits
  sees := seen
  stored := rfl
  agrees entry member := by cases member
  offers round waits := by cases waits

/-! ### Storing -/

/-- A refused transaction that the ledger does not know has failed, and this is why. -/
theorem rejected (shows : Shows view trace indexed) {name : Digest} (error : LedgerError)
    (unknown : indexed.status name = .unknown) :
    Shows view
      { trace with
        registry := trace.registry.tryStatus name ⟨.failed, some error.message⟩
        rejections := (name, error.message) :: trace.rejections } indexed := by
  have agrees : CacheAgrees indexed ((name, error.message) :: trace.rejections) [name]
      trace.registry.cache := by
    refine shows.agrees.mono ?_
    intro other record excepted holds
    rw [lookup_cons_eq_ite, if_neg fun same => excepted (List.mem_singleton.mpr same)]
    exact holds
  refine { shows with
    tidy := shows.tidy.tryStatus _ _
    agrees := agrees.tryStatus shows.tidy (fun current found => ?_) ?_ }
  · have holds := shows.agrees.of_peek shows.tidy found
    rw [unknown] at holds
    exact holds.le_failed
  · rw [unknown, lookup_cons_eq_ite, if_pos rfl, StatusRecord.kept, if_neg]
    · exact .failed error.message
    · exact fun same => error.message_ne_empty (Option.some.inj same)

/-- Why a stored transaction was refused is of no account. -/
theorem redelivered (shows : Shows view trace indexed) {name : Digest} (message : String)
    (known : indexed.status name ≠ .unknown) :
    Shows view { trace with rejections := (name, message) :: trace.rejections } indexed := by
  refine { shows with agrees := shows.agrees.mono fun other record _ holds => ?_ }
  rw [lookup_cons_eq_ite]
  by_cases same : other = name
  · subst same
    rw [holds.eq_bare known]
    exact .bare _ _
  · rw [if_neg same]
    exact holds

/-- A transaction that the ledger takes is committed. -/
theorem accepted (shows : Shows view trace indexed) {transaction : Transaction} {ledger : L}
    (fresh : indexed.positions.lookup transaction.digest = none)
    (seen : view.Sees ledger (indexed.appended transaction))
    (small : indexed.transactions.length < 2 ^ 64) :
    Shows view
      { trace with
        registry := Registry.tryStatus { trace.registry with ledger } transaction.digest
          (.bare .committed)
        stored := transaction :: trace.stored } (indexed.appended transaction) := by
  have sound := view.sound shows.sees
  have status := sound.status_appended transaction small
  have tidy : Tidy { trace.registry with ledger } :=
    shows.tidy.later shows.tidy.idle rfl (Int.le_refl _)
  have agrees : CacheAgrees (indexed.appended transaction) trace.rejections [transaction.digest]
      trace.registry.cache := by
    refine shows.agrees.mono ?_
    intro name record excepted holds
    rw [status, if_neg fun same => excepted (List.mem_singleton.mpr same)]
    exact holds
  refine ⟨tidy.tryStatus _ _, shows.logFits, seen, ?_,
    CacheAgrees.tryStatus agrees tidy (fun current found => ?_) ?_, fun round waits => ?_⟩
  · rw [List.reverse_cons, ← shows.stored]
    rfl
  · have holds := shows.agrees.of_peek shows.tidy found
    rw [(IndexedLedger.status_eq_unknown_iff _).mpr fresh] at holds
    exact Status.le_trans holds.le_failed (by decide)
  · rw [status, if_pos rfl]
    exact .bare _ _
  · exact (shows.offers round waits).imp_left fun offers => offers.appended sound transaction

theorem submit (shows : Shows view trace indexed) (transaction : Transaction)
    (fits : (trace.step H (.submit transaction)).Fits) :
    ∃ after, Shows view (trace.step H (.submit transaction)) after := by
  have small := shows.small (fits.of_suffix (stored_step (.submit transaction)))
  have agree := view.store_agrees shows.sees transaction
  cases answered : indexed.store transaction with
  | error error =>
    rw [answered] at agree
    refine ⟨indexed, ?_⟩
    by_cases unknown : trace.registry.ledgerStatus transaction.digest = .unknown
    · simp only [step, Registry.submit, accept, agree.of_error, if_pos unknown, conclude_singleton]
      rw [shows.ledgerStatus_eq] at unknown
      exact shows.rejected error unknown
    · simp only [step, Registry.submit, accept, agree.of_error, if_neg unknown, Settled.conclude]
      rw [shows.ledgerStatus_eq] at unknown
      exact shows.redelivered error.message unknown
  | ok changed =>
    rw [answered] at agree
    obtain ⟨ledger, stored, seen⟩ := agree.of_ok
    obtain ⟨_, fresh, rfl⟩ := IndexedLedger.of_store_eq_ok answered
    simp only [step, Registry.submit, accept, stored, conclude_singleton] at fits ⊢
    refine ⟨_, shows.accepted fresh (seen (fits.2 transaction List.mem_cons_self) ?_) small⟩
    rw [IndexedLedger.appended, List.length_append, shows.size]
    exact fits.1

/-! ### Marking and asking -/

theorem markPending (shows : Shows view trace indexed) {name : Digest}
    (absent : ¬ trace.HasStored name) :
    Shows view { trace with registry := trace.registry.markPending name } indexed := by
  have unknown : indexed.status name = .unknown :=
    Classical.not_not.mp fun known => absent ((shows.hasStored_iff name).mpr known)
  refine { shows with tidy := shows.tidy.tryStatus name _, agrees := ?_ }
  show CacheAgrees indexed _ [] (trace.registry.tryStatus name (.bare .pending)).cache
  by_cases refused : ∃ current, trace.registry.peek name = some current ∧
      (StatusRecord.bare .pending).status < current.status
  · obtain ⟨current, found, lower⟩ := refused
    rw [shows.tidy.tryStatus_of_lt found lower]
    exact shows.agrees.looked
  · refine shows.agrees.cons.tryStatus shows.tidy (fun current found => ?_) ?_
    · exact Status.not_lt.mp fun lower => refused ⟨current, found, lower⟩
    · rw [unknown]
      exact .pending _

theorem query (shows : Shows view trace indexed) (name : Digest) :
    Shows view { trace with registry := (trace.registry.status name).2 } indexed := by
  cases found : trace.registry.peek name with
  | some record =>
    rw [shows.tidy.status_of_some found]
    exact { shows with tidy := shows.tidy.looked name, agrees := shows.agrees.looked }
  | none =>
    rw [shows.tidy.status_of_none found, shows.ledgerStatus_eq]
    exact { shows with
      tidy := shows.tidy.stamped name _
      agrees := shows.agrees.cons.stamped (.bare _ _) }

/-! ### Blocks -/

/-- Time may pass, and answers of the log may be used up. -/
theorem later (shows : Shows view trace indexed) (registry : Registry L)
    (ledger : registry.ledger = trace.registry.ledger)
    (cache : registry.cache = trace.registry.cache) (idle : registry.service = none)
    (passed : trace.registry.now ≤ registry.now)
    (log : ∀ answer ∈ registry.log, answer ∈ trace.registry.log) :
    Shows view { trace with registry } indexed := by
  refine ⟨shows.tidy.later idle cache passed, fun answer member => ?_, ?_, shows.stored, ?_,
    shows.offers⟩
  · exact shows.logFits answer (log answer member)
  · rw [ledger]
    exact shows.sees
  · rw [cache]
    exact shows.agrees

/-- Making a block changes nothing that is reported. -/
theorem proposed (shows : Shows view trace indexed) (fits : trace.Fits) {maxExponent : Nat}
    {now : Int64} {proposal : Option Proposal} {ledger : L}
    (answered : Ledger.propose H maxExponent now trace.registry.ledger = .ok (proposal, ledger)) :
    ∃ changed, Shows view { trace with registry := { trace.registry with ledger } } changed ∧
      IndexedLedger.Proposes H maxExponent now indexed proposal changed := by
  have agree := view.propose_agrees shows.sees maxExponent now
  cases made : indexed.propose H maxExponent now with
  | error error =>
    rw [made] at agree
    rw [agree.of_error] at answered
    cases answered
  | ok result =>
    rw [made] at agree
    obtain ⟨value, given, same, seen⟩ := agree.of_ok
    rw [given] at answered
    cases answered
    obtain ⟨other, changed⟩ := result
    obtain rfl : proposal = other := same
    have proposes := IndexedLedger.proposes_of_ok made
    refine ⟨changed, ⟨?_, shows.logFits, seen, ?_, ?_, fun round waits => ?_⟩, proposes⟩
    · exact shows.tidy.later shows.tidy.idle rfl (Int.le_refl _)
    · exact proposes.transactions_eq.trans shows.stored
    · refine shows.agrees.mono fun name record _ holds => ?_
      rw [proposes.status_eq (view.sound shows.sees) (shows.small fits)]
      exact holds
    · have offers := shows.offers round waits
      rw [offers.1.eq_of_proposes proposes]
      exact offers

end Shows

/-- What the log answers next fits. -/
theorem publication_fits {log : List Log.Answer} (fits : ∀ answer ∈ log, AnswerFits answer)
    {header : Header} {publication : Publication}
    (answered : (log.head?.getD Log.Answer.ofLocalLog).verdict.publication H header =
      .ok publication) : publication.Fits := by
  have next : AnswerFits (log.head?.getD Log.Answer.ofLocalLog) := by
    cases log with
    | nil =>
      intro publication published
      cases published
    | cons answer rest => exact fits answer List.mem_cons_self
  generalize log.head?.getD Log.Answer.ofLocalLog = answer at answered next
  cases said : answer.verdict with
  | noted =>
    rw [said] at answered
    cases answered
    trivial
  | published given =>
    rw [said] at answered
    cases answered
    exact next _ said
  | refused refusal =>
    rw [said] at answered
    cases answered

namespace Shows

/-- A round that waits for the log has the block that the ledger offers. -/
theorem begun (shows : Shows view trace indexed) (fits : trace.Fits) (free : trace.waiting = none) :
    (∃ after, Shows view (trace.begun H) after) ∧
      ∀ round, (trace.begun H).waiting = some round →
        (trace.begun H).registry.now ≤ round.answered := by
  simp only [Trace.begun, beginRound, offer, handOver]
  cases answered : Ledger.propose H trace.registry.maxExponent (Int64.ofInt trace.registry.now)
      trace.registry.ledger with
  | error error =>
    refine ⟨⟨indexed, shows⟩, fun round waits => ?_⟩
    rw [free] at waits
    cases waits
  | ok result =>
    obtain ⟨proposal, ledger⟩ := result
    obtain ⟨changed, after, proposes⟩ := shows.proposed fits answered
    cases proposal with
    | none =>
      refine ⟨⟨changed, { after with offers := fun round waits => ?_ }⟩, fun round waits => ?_⟩ <;>
        cases waits
    | some proposal =>
      have later := after.later
        { trace.registry with ledger, log := trace.registry.log.tail } rfl rfl shows.tidy.idle
        (Int.le_refl _) fun answer member => List.mem_of_mem_tail member
      refine ⟨⟨changed, { later with offers := fun round waits => ?_ }⟩, fun round waits => ?_⟩ <;>
        cases waits
      · exact ⟨proposes.offers, fun publication => publication_fits shows.logFits⟩
      · simp only
        omega

/-- A ledger that has published the block at hand finalizes its transactions. -/
theorem published (shows : Shows view trace indexed) {changed : IndexedLedger} {ledger : L}
    (seen : view.Sees ledger changed) (transactions : changed.transactions = indexed.transactions)
    {names : List Digest}
    (status : ∀ name,
      changed.status name = if name ∈ names then .finalized else indexed.status name)
    (metrics : Metrics) :
    Shows view
      { trace with
        registry := { Registry.tell { trace.registry with ledger }
            (names.map fun name => (name, .bare .finalized)) with metrics }
        waiting := none } changed := by
  have tidy : Tidy { trace.registry with ledger } :=
    shows.tidy.later shows.tidy.idle rfl (Int.le_refl _)
  have told := tidy.tell (names.map fun name => (name, .bare .finalized))
  have agrees : CacheAgrees changed trace.rejections names trace.registry.cache := by
    refine shows.agrees.mono ?_
    intro name record excepted holds
    rw [status, if_neg excepted]
    exact holds
  refine ⟨told.later told.idle rfl (Int.le_refl _), ?_, ?_, transactions.trans shows.stored,
    CacheAgrees.tell_finalized agrees tidy fun name member => ?_,
    fun round waits => by cases waits⟩
  · rw [tell_eq]
    exact shows.logFits
  · rw [tell_eq]
    exact seen
  · rw [status, if_pos member]

/-- The log's answer is recorded, and every transaction of the block is marked. -/
theorem finished (shows : Shows view trace indexed) (fits : trace.Fits) {round : Round}
    (offers : indexed.Offers round.proposal)
    (answerFits : ∀ publication, round.answer = .ok publication → publication.Fits) :
    ∃ after, Shows view (trace.finished H round) after := by
  have unanswered : Shows view { trace with waiting := none } indexed :=
    { shows with offers := fun round waits => by cases waits }
  simp only [Trace.finished, finishRound, settle]
  cases said : round.answer with
  | error refusal => exact ⟨indexed, unanswered⟩
  | ok publication =>
    have agree := view.finalize_agrees shows.sees (round.proposal.digest H) publication
      (answerFits publication said)
    cases answered : indexed.finalize (round.proposal.digest H) publication with
    | error error =>
      rw [answered] at agree
      simp only [agree.of_error]
      exact ⟨indexed, unanswered⟩
    | ok changed =>
      rw [answered] at agree
      obtain ⟨ledger, finalized, seen⟩ := agree.of_ok
      simp only [finalized, Settled.conclude]
      have sound := view.sound shows.sees
      obtain ⟨earlier, block, whole, _, _, rfl⟩ := sound.of_finalize_eq_ok answered
      -- Only the last block can be published, so it is the one that the round was begun with.
      obtain ⟨offered, last, _, proposal⟩ := offers
      rw [whole, List.getLast?_concat] at last
      obtain rfl : block = offered := Option.some.inj last
      have status := sound.status_finalized whole publication (shows.small fits)
      rw [show (indexed.inBlock block).map (·.digest) = round.proposal.transactions by
        rw [proposal]; rfl] at status
      exact ⟨_, shows.published seen rfl status _⟩

/-- A round that nothing comes between. -/
theorem round (shows : Shows view trace indexed) (fits : trace.Fits) (free : trace.waiting = none) :
    ∃ after, Shows view (trace.step H .round) after := by
  obtain ⟨⟨begun, showsBegun⟩, after⟩ := shows.begun fits free
  rw [step_round shows.tidy.idle free]
  cases waits : (trace.begun H).waiting with
  | none => exact ⟨begun, showsBegun⟩
  | some round =>
    have offers := showsBegun.offers round waits
    have answered := showsBegun.later { (trace.begun H).registry with now := round.answered }
      rfl rfl showsBegun.tidy.idle (after round waits) fun _ member => member
    have fitsBegun : (trace.begun H).Fits := fits_begun.mpr fits
    exact answered.finished fitsBegun offers.1 offers.2

/-! ### Every event -/

/-- Whatever happens, everything goes on to agree. -/
theorem step (shows : Shows view trace indexed) (event : Event) (allowed : trace.Allows event)
    (fits : (trace.step H event).Fits) : ∃ after, Shows view (trace.step H event) after := by
  have before : trace.Fits := fits.of_suffix (stored_step event)
  cases event with
  | submit transaction => exact shows.submit transaction fits
  | markPending name => exact ⟨indexed, shows.markPending allowed⟩
  | setStatus name record => exact allowed.elim
  | query name => exact ⟨indexed, shows.query name⟩
  | propose maxExponent =>
    simp only [Trace.step, Event.run]
    cases answered : Ledger.propose H maxExponent (Int64.ofInt trace.registry.now)
        trace.registry.ledger with
    | error error => exact ⟨indexed, shows⟩
    | ok result =>
      obtain ⟨changed, after, _⟩ := shows.proposed before answered
      exact ⟨changed, after⟩
  | round => exact shows.round before allowed
  | advance milliseconds =>
    simp only [Trace.step, Event.run, advance]
    rw [serve_of_idle shows.tidy.idle]
    refine ⟨indexed, shows.later _ rfl rfl shows.tidy.idle ?_ fun _ member => member⟩
    simp only
    omega

/-- Everything agrees in every registry that one in which everything agrees can become. -/
theorem reachable {horizon : Int} {registry : Registry L}
    (start : Shows view ⟨registry, none, [], []⟩ indexed)
    (reachable : Reachable H horizon registry trace) (fits : trace.Fits) :
    ∃ after, Shows view trace after := by
  induction reachable with
  | start => exact ⟨indexed, start⟩
  | @step trace after reachable event allowed returned inductionHypothesis =>
    obtain ⟨before, shows⟩ := inductionHypothesis (fits.of_suffix (stored_stepWithin returned))
    obtain rfl := (stepWithin_timely shows.tidy horizon event).eq_of_ok returned
    exact shows.step event allowed fits
  | @begun trace reachable free inductionHypothesis =>
    have fits : trace.Fits := fits_begun.mp fits
    obtain ⟨before, shows⟩ := inductionHypothesis fits
    exact (shows.begun fits free).1
  | @finished trace after reachable round waits returned inductionHypothesis =>
    have fits : trace.Fits := fits.of_suffix (stored_finishedWithin returned ▸ List.suffix_refl _)
    obtain ⟨before, shows⟩ := inductionHypothesis fits
    obtain rfl := (finishedWithin_timely shows.tidy horizon round).eq_of_ok returned
    have offers := shows.offers round waits
    exact shows.finished fits offers.1 offers.2

end Shows

end

end Trace

/-! ### Coherence -/

end Registry

end StreamLedger
