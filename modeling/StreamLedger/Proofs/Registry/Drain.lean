/-
This file runs rounds until nothing waits. A round over a ledger whose last block is published takes
the next block of the split of what waits, and if the log refuses nothing, the ledger after it is
such a ledger again, with less that waits. So the rounds report the sizes of the split one after the
other, and from then on each finds nothing and leaves the registry as it was. Between two rounds
time may pass, and statuses may be asked for and set.
-/
import StreamLedger.Proofs.Ledger.Backlog
import StreamLedger.Proofs.Registry.Coherence

namespace StreamLedger

/-! ### Ledgers that have nothing to offer -/

/-- A ledger that offers no block stays as it is. -/
class Ledger.RestsIdle (L : Type) [Ledger L] : Prop where
  eq_of_propose : ∀ {H : DigestFunction} {ledger changed : L} {maxExponent : Nat} {now : Int64},
    Ledger.propose H maxExponent now ledger = .ok (none, changed) → changed = ledger

instance : Ledger.RestsIdle IndexedLedger where
  eq_of_propose answered := by
    cases IndexedLedger.proposes_of_ok answered with
    | nothing settled idle => rfl

theorem KeyedLedger.eq_of_extend {H : DigestFunction} {ledger changed : KeyedLedger}
    {maxExponent : Nat} {now : Int64} {previous : Option Block}
    (answered : ledger.extend H maxExponent now previous = .ok (none, changed)) :
    changed = ledger := by
  simp only [extend, bind, Except.bind] at answered
  split at answered
  · cases answered
  · split at answered
    · cases answered
      rfl
    · split at answered
      · cases answered
      · split at answered
        · cases answered
        · split at answered
          · cases answered
          · cases answered

instance : Ledger.RestsIdle KeyedLedger where
  eq_of_propose answered := by
    simp only [Ledger.propose, KeyedLedger.propose, bind, Except.bind] at answered
    split at answered
    · cases answered
    · split at answered
      · split at answered
        · exact KeyedLedger.eq_of_extend answered
        · split at answered
          · cases answered
          · cases answered
      · exact KeyedLedger.eq_of_extend answered

namespace Registry

/-! ### Rounds and pauses -/

/-- Nothing comes to the ledger. -/
def Event.Quiet : Event → Prop
  | .submit _ | .propose _ | .round => False
  | .markPending _ | .setStatus _ _ | .query _ | .advance _ => True

section

variable {L : Type} [Ledger L] (H : DigestFunction)

/-- Runs a round after each of the pauses, and collects what the rounds report. -/
def runRounds : Registry L → List (List Event) →
    List (Except RoundError (Option Finalized)) × Registry L
  | registry, [] => ([], registry)
  | registry, pause :: rest =>
    let (report, after) := (registry.runEvents H pause).round H
    let (reports, final) := runRounds after rest
    (report :: reports, final)

variable {H} {registry : Registry L}

theorem Event.Quiet.run_eq {event : Event} (quiet : event.Quiet) (idle : registry.service = none) :
    ∃ cache now, event.run H registry = { registry with cache, now } := by
  cases event with
  | markPending name => exact ⟨_, _, rfl⟩
  | setStatus name record => exact ⟨_, _, rfl⟩
  | query name => exact ⟨_, _, rfl⟩
  | advance milliseconds =>
    rw [Event.run, Registry.advance, serve_of_idle idle]
    exact ⟨_, _, rfl⟩
  | submit transaction => cases quiet
  | propose maxExponent => cases quiet
  | round => cases quiet

/-- A pause moves the cache and the time. -/
theorem runEvents_eq_of_quiet {pause : List Event} (quiet : ∀ event ∈ pause, event.Quiet)
    (idle : registry.service = none) :
    ∃ cache now, registry.runEvents H pause = { registry with cache, now } := by
  induction pause generalizing registry with
  | nil => exact ⟨_, _, rfl⟩
  | cons event rest inductionHypothesis =>
    obtain ⟨quietNow, quietLater⟩ := List.forall_mem_cons.mp quiet
    obtain ⟨cache, now, after⟩ := quietNow.run_eq (H := H) idle
    rw [runEvents, List.foldl_cons, after, ← runEvents]
    exact inductionHypothesis quietLater idle

/-- A round that finds nothing ends at once. -/
theorem round_of_nothing [Ledger.RestsIdle L] {ledger : L}
    (proposed : Ledger.propose H registry.maxExponent (Int64.ofInt registry.now) registry.ledger =
      .ok (none, ledger)) : registry.round H = (.ok none, registry) := by
  obtain rfl := Ledger.RestsIdle.eq_of_propose proposed
  simp only [round, beginRound, offer, proposed]

/-- A round whose block is published and recorded reports it. -/
theorem round_of_publication (idle : registry.service = none) {proposal : Proposal}
    {ledger changed : L} {publication : Publication}
    (proposed : Ledger.propose H registry.maxExponent (Int64.ofInt registry.now) registry.ledger =
      .ok (some proposal, ledger))
    (answered : (registry.log.head?.getD Log.Answer.ofLocalLog).verdict.publication H
      proposal.header = .ok publication)
    (finalized : Ledger.finalize ledger (proposal.digest H) publication = .ok changed) :
    ∃ cache now metrics, registry.round H =
      (.ok (some ⟨proposal.digest H, proposal.transactions.length⟩),
        { registry with ledger := changed, cache, log := registry.log.tail, now, metrics }) := by
  simp only [round, beginRound, offer, proposed, handOver]
  rw [serve_of_idle (by exact idle)]
  simp only [finishRound, settle, answered, finalized, Settled.conclude]
  rw [tell_eq]
  exact ⟨_, _, _, rfl⟩

end

/-! ### A backlog -/

/-- Whatever header the log is given, it publishes it, and the publication can be recorded. -/
def Accepts {H : DigestFunction} {L : Type} [Ledger L] (window : Ledger.Window H L)
    (answer : Log.Answer) : Prop :=
  ∀ header, ∃ publication, answer.verdict.publication H header = .ok publication ∧
    window.Records publication

section

variable {L : Type} [Ledger L] {H : DigestFunction}

/-- A registry whose rounds can all succeed: no block waits for a publication, the log refuses
nothing, and no service runs other rounds. -/
structure Ready (window : Ledger.Window H L) (registry : Registry L) (indexed : IndexedLedger) :
    Prop where
  seen : window.Sees registry.ledger indexed
  settled : ∀ block ∈ indexed.blocks.getLast?, block.isFinalized = true
  small : indexed.transactions.length < 2 ^ 64
  idle : registry.service = none
  accepts : ∀ answer ∈ Log.Answer.ofLocalLog :: registry.log, Accepts window answer

namespace Ready

variable {window : Ledger.Window H L} {registry : Registry L} {indexed : IndexedLedger}

theorem rested (ready : Ready window registry indexed) {pause : List Event}
    (quiet : ∀ event ∈ pause, event.Quiet) :
    Ready window (registry.runEvents H pause) indexed ∧
      (registry.runEvents H pause).maxExponent = registry.maxExponent := by
  obtain ⟨cache, now, after⟩ := runEvents_eq_of_quiet (H := H) quiet ready.idle
  rw [after]
  exact ⟨⟨ready.seen, ready.settled, ready.small, ready.idle, ready.accepts⟩, rfl⟩

/-- Without a backlog a round changes nothing. -/
theorem round_eq [Ledger.RestsIdle L] (ready : Ready window registry indexed)
    (nothing : indexed.waiting = []) :
    registry.round H = (.ok none, registry) := by
  have agree :=
    window.propose_agrees ready.seen registry.maxExponent (Int64.ofInt registry.now)
  rw [IndexedLedger.propose_of_idle ready.settled nothing] at agree
  obtain ⟨⟨_, ledger⟩, answered, rfl, _⟩ := agree.of_ok
  exact round_of_nothing answered

/-- With a backlog a round publishes the next block. -/
theorem exists_round (ready : Ready window registry indexed)
    (waits : 0 < indexed.waiting.length) :
    ∃ after changed entry, Ready window after changed ∧
      after.maxExponent = registry.maxExponent ∧
      indexed.Packs changed entry (blockSize indexed.waiting.length registry.maxExponent) ∧
      registry.round H =
        (.ok (some ⟨entry.block.digest H, entry.transactions.length⟩), after) := by
  obtain ⟨proposal, offering, proposed, takes⟩ := (window.sound ready.seen).packs ready.settled
    waits ready.small registry.maxExponent (Int64.ofInt registry.now)
  have agree :=
    window.propose_agrees ready.seen registry.maxExponent (Int64.ofInt registry.now)
  rw [proposed] at agree
  obtain ⟨⟨_, ledger⟩, made, rfl, seenOffering⟩ := agree.of_ok
  have next : registry.log.head?.getD Log.Answer.ofLocalLog ∈
      Log.Answer.ofLocalLog :: registry.log := by
    cases registry.log <;> simp
  obtain ⟨publication, answered, records⟩ := ready.accepts _ next proposal.header
  obtain ⟨changed, entry, finalized, packs, named, batch⟩ := takes publication
  have recorded := records seenOffering (proposal.digest H)
  rw [finalized] at recorded
  obtain ⟨final, accepted, seenFinal⟩ := recorded.of_ok
  obtain ⟨cache, now, metrics, reported⟩ :=
    round_of_publication ready.idle made answered accepted
  refine ⟨{ registry with ledger := final, cache, log := registry.log.tail, now, metrics }, changed,
    entry, ⟨seenFinal, packs.settled, ?_, ready.idle, ?_⟩, rfl, packs, ?_⟩
  · rw [packs.transactions]
    exact ready.small
  · refine fun answer member => ready.accepts answer ?_
    rcases List.mem_cons.mp member with rfl | later
    · exact List.mem_cons_self
    · exact List.mem_cons_of_mem _ (List.mem_of_mem_tail later)
  · rw [reported, named, ← batch, List.length_map]

end Ready

/-! ### Rounds one after the other -/

/-- What rounds after pauses make of a registry whose chain is `entries` and before whose ledger
`waiting` waits: the blocks `more`, over the first of the waiting transactions, and `left` waits
still. -/
structure Drains (H : DigestFunction) (registry : Registry L) (pauses : List (List Event))
    (entries more : List BlockEntry) (waiting left : List Transaction) : Prop where
  lists : Ledger.Lists (registry.runRounds H pauses).2.ledger (entries ++ more)
  published : ∀ entry ∈ more, entry.block.isFinalized = true
  whole : waiting = more.flatMap (·.transactions) ++ left
  /-- A round publishes one block, of the size that is next in the split of the backlog. -/
  sizes : more.map (·.transactions.length) =
    (blockSizes waiting.length registry.maxExponent).take pauses.length
  /-- Each block is reported by the round that publishes it, and the other rounds find none. -/
  reports : (registry.runRounds H pauses).1 =
    more.map (fun entry => .ok (some ⟨entry.block.digest H, entry.transactions.length⟩)) ++
      List.replicate (pauses.length - more.length) (.ok none)
  /-- After as many rounds as the split has parts nothing waits, and a round changes nothing. -/
  ends : (blockSizes waiting.length registry.maxExponent).length ≤ pauses.length →
    left = [] ∧ ∀ pause : List Event, (∀ event ∈ pause, event.Quiet) →
      let rested := (registry.runRounds H pauses).2.runEvents H pause
      rested.round H = (.ok none, rested)

namespace Drains

variable {registry after : Registry L} {pause : List Event} {rest : List (List Event)}
  {entries more : List BlockEntry} {waiting left : List Transaction}

theorem runRounds_cons {report : Except RoundError (Option Finalized)}
    (reported : (registry.runEvents H pause).round H = (report, after))
    (rest : List (List Event)) :
    registry.runRounds H (pause :: rest) =
      (report :: (after.runRounds H rest).1, (after.runRounds H rest).2) := by
  rw [runRounds, reported]

/-- A round before which nothing waits adds nothing. -/
theorem nothing (drains : Drains H after rest entries more [] left)
    (reported : (registry.runEvents H pause).round H = (.ok none, after)) :
    Drains H registry (pause :: rest) entries more [] left := by
  have whole := runRounds_cons reported rest
  have sizes := drains.sizes
  rw [List.length_nil, blockSizes_zero, List.take_nil, List.map_eq_nil_iff] at sizes
  subst sizes
  refine ⟨?_, drains.published, drains.whole, ?_, ?_, fun _ => ?_⟩
  · rw [whole]
    exact drains.lists
  · rw [List.length_nil, blockSizes_zero, List.take_nil, List.map_nil]
  · rw [whole, drains.reports]
    rfl
  · rw [whole]
    refine drains.ends ?_
    rw [List.length_nil, blockSizes_zero]
    exact Nat.zero_le _

/-- A round that publishes a block of the size that is next in the split leaves the split of what
waits after it. -/
theorem next {entry : BlockEntry}
    (drains : Drains H after rest (entries ++ [entry]) more waiting left)
    (reported : (registry.runEvents H pause).round H =
      (.ok (some ⟨entry.block.digest H, entry.transactions.length⟩), after))
    (published : entry.block.isFinalized = true)
    (split : blockSizes (entry.transactions ++ waiting).length registry.maxExponent =
      entry.transactions.length :: blockSizes waiting.length after.maxExponent) :
    Drains H registry (pause :: rest) entries (entry :: more) (entry.transactions ++ waiting)
      left := by
  have whole := runRounds_cons reported rest
  refine ⟨?_, List.forall_mem_cons.mpr ⟨published, drains.published⟩, ?_, ?_, ?_, fun enough => ?_⟩
  · rw [whole, List.append_cons]
    exact drains.lists
  · rw [List.flatMap_cons, List.append_assoc, ← drains.whole]
  · rw [split, List.map_cons, drains.sizes]
    rfl
  · rw [whole, drains.reports, List.length_cons, List.length_cons, Nat.add_sub_add_right]
    rfl
  · rw [whole]
    rw [split, List.length_cons, List.length_cons] at enough
    exact drains.ends (Nat.le_of_succ_le_succ enough)

end Drains

/-- The rounds of a registry that is ready publish the split of its backlog, block by block. -/
theorem Ready.drains [Ledger.RestsIdle L] {window : Ledger.Window H L} {registry : Registry L}
    {indexed : IndexedLedger} (ready : Ready window registry indexed) {pauses : List (List Event)}
    (quiet : ∀ pause ∈ pauses, ∀ event ∈ pause, event.Quiet) :
    ∃ more left, Drains H registry pauses indexed.entries more indexed.waiting left := by
  -- the registry is ready before each round, over a chain and a backlog that change together
  induction pauses generalizing registry indexed with
  | nil =>
    refine ⟨[], indexed.waiting, ?_, nofun, rfl, rfl, rfl, fun enough => ?_⟩
    · rw [List.append_nil]
      exact window.lists ready.seen
    · have split := List.length_eq_zero_iff.mp (Nat.le_zero.mp enough)
      have empty := List.eq_nil_of_length_eq_zero (blockSizes_eq_nil_iff.mp split)
      refine ⟨empty, fun pause quiet => ?_⟩
      exact (ready.rested quiet).1.round_eq empty
  | cons pause rest inductionHypothesis =>
    obtain ⟨quietNow, quietLater⟩ := List.forall_mem_cons.mp quiet
    obtain ⟨rested, limit⟩ := ready.rested quietNow
    rcases Nat.eq_zero_or_pos indexed.waiting.length with idle | waits
    · have empty := List.eq_nil_of_length_eq_zero idle
      obtain ⟨more, left, drains⟩ := inductionHypothesis rested quietLater
      rw [empty] at drains ⊢
      exact ⟨more, left, drains.nothing (rested.round_eq empty)⟩
    · obtain ⟨after, changed, entry, readyAfter, limitAfter, packs, reported⟩ :=
        rested.exists_round waits
      obtain ⟨more, left, drains⟩ := inductionHypothesis readyAfter quietLater
      rw [packs.entries] at drains
      have split := packs.blockSizes_eq waits
      rw [packs.waiting_eq] at split ⊢
      refine ⟨entry :: more, left, drains.next reported packs.published ?_⟩
      rw [limitAfter, ← limit, split]

/-! ### Both kinds of ledgers -/

/-- A registry without a service stands before the ledger that a history leads to. No block of its
chain, which is `entries`, waits for a publication, but the transactions `waiting` after the last
block may wait. The log refuses nothing. -/
structure Backlogged (H : DigestFunction) (start : L) (history : List Ledger.Operation)
    (registry : Registry L) (entries : List BlockEntry) (waiting : List Transaction) : Prop where
  reached : registry.ledger = (Ledger.runAll H start history).2
  small : (Ledger.accepted H IndexedLedger.empty history).length < 2 ^ 64
  lists : Ledger.Lists registry.ledger entries
  settled : ∀ entry ∈ entries.getLast?, entry.block.isFinalized = true
  whole : Ledger.accepted H start history = entries.flatMap (·.transactions) ++ waiting
  idle : registry.service = none
  willing : ∀ answer ∈ registry.log, ∀ refusal, answer.verdict ≠ .refused refusal

/-- What the log publishes can be recorded, if it refuses nothing. -/
theorem accepts_of_willing {window : Ledger.Window H L} {log : List Log.Answer}
    (willing : ∀ answer ∈ log, ∀ refusal, answer.verdict ≠ .refused refusal)
    (noted : ∀ name, window.Records (.logEntry name))
    (given : ∀ answer ∈ log, ∀ publication, answer.verdict = .published publication →
      window.Records publication) :
    ∀ answer ∈ Log.Answer.ofLocalLog :: log, Accepts window answer := by
  intro answer member header
  rcases List.mem_cons.mp member with rfl | member
  · exact ⟨_, rfl, noted _⟩
  · cases said : answer.verdict with
    | noted => exact ⟨_, rfl, noted _⟩
    | published publication => exact ⟨_, rfl, given answer member publication said⟩
    | refused refusal => exact absurd said (willing answer member refusal)

namespace Backlogged

variable {start : L} {history : List Ledger.Operation} {registry : Registry L}
  {entries : List BlockEntry} {waiting : List Transaction}

/-- A registry that has just been started before the ledger. -/
theorem of_start (small : (Ledger.accepted H IndexedLedger.empty history).length < 2 ^ 64)
    (lists : Ledger.Lists (Ledger.runAll H start history).2 entries)
    (settled : ∀ entry ∈ entries.getLast?, entry.block.isFinalized = true)
    (whole : Ledger.accepted H start history = entries.flatMap (·.transactions) ++ waiting)
    {log : List Log.Answer} (willing : ∀ answer ∈ log, ∀ refusal, answer.verdict ≠ .refused refusal)
    (maxExponent capacity ttl : Nat) (now : Int) :
    Backlogged H start history
      (Registry.start (Ledger.runAll H start history).2 maxExponent capacity ttl log now) entries
      waiting :=
  ⟨rfl, small, lists, settled, whole, rfl, willing⟩

/-- What a ledger lists and holds is what the ledger in memory lists and holds. -/
theorem drains [Ledger.RestsIdle L] {window : Ledger.Window H L}
    (backlogged : Backlogged H start history registry entries waiting)
    (seen : window.Sees (Ledger.runAll H start history).2
      (Ledger.runAll H IndexedLedger.empty history).2)
    (same : Ledger.accepted H start history = Ledger.accepted H IndexedLedger.empty history)
    (accepts : ∀ answer ∈ Log.Answer.ofLocalLog :: registry.log, Accepts window answer)
    {pauses : List (List Event)} (quiet : ∀ pause ∈ pauses, ∀ event ∈ pause, event.Quiet) :
    ∃ more left, Drains H registry pauses entries more waiting left := by
  rw [← backlogged.reached] at seen
  have stored := Ledger.transactions_of_empty (H := H) history
  have small := backlogged.small
  have settled := backlogged.settled
  have chain := ((IndexedLedger.sound_empty H).runAll history).chain
    (IndexedLedger.headed_empty.runAll (IndexedLedger.sound_empty H) history)
  have split := backlogged.whole
  rw [same] at split
  generalize (Ledger.runAll H IndexedLedger.empty history).2 = indexed at seen stored chain
  obtain rfl := backlogged.lists.unique (window.lists seen)
  rw [← stored] at small split
  rw [chain.whole] at split
  obtain rfl : indexed.waiting = waiting :=
    List.append_cancel_left ((List.take_append_drop _ _).trans split)
  refine Ready.drains ⟨seen, fun block last => ?_, small, backlogged.idle, accepts⟩ quiet
  rw [← IndexedLedger.getLast?_map_block] at last
  obtain ⟨entry, final, rfl⟩ := Option.map_eq_some_iff.mp last
  exact settled entry final

end Backlogged

end

/-- After any history that started empty, the rounds over a ledger in memory publish the split of
what waits, in the order of arrival, and then find nothing, and so do the rounds over a ledger in a
table, as long as positions and lengths fit into eight bytes. -/
theorem drains_of_empty (H : DigestFunction) (history : List Ledger.Operation)
    (entries : List BlockEntry) (waiting : List Transaction) (pauses : List (List Event))
    (quiet : ∀ pause ∈ pauses, ∀ event ∈ pause, event.Quiet) :
    (∀ registry : Registry IndexedLedger,
      Backlogged H IndexedLedger.empty history registry entries waiting →
      ∃ more left, Drains H registry pauses entries more waiting left) ∧
    ((∀ operation ∈ history, operation.Fits) → ∀ registry : Registry KeyedLedger,
      Backlogged H KeyedLedger.empty history registry entries waiting →
      (∀ answer ∈ registry.log, AnswerFits answer) →
      ∃ more left, Drains H registry pauses entries more waiting left) := by
  refine ⟨fun registry backlogged => ?_,
    fun operationsFit registry backlogged answersFit => ?_⟩
  · refine backlogged.drains (Ledger.sees_indexed_runAll history) rfl ?_ quiet
    exact accepts_of_willing backlogged.willing (fun _ => IndexedLedger.records H _)
      fun _ _ publication _ => IndexedLedger.records H publication
  · have small := backlogged.small
    rw [← Ledger.transactions_of_empty] at small
    obtain ⟨seen, same⟩ := Ledger.sees_keyed_runAll operationsFit small
    refine backlogged.drains seen same ?_ quiet
    have noteFits : ∀ name, (Publication.logEntry name).Fits := fun _ => trivial
    exact accepts_of_willing backlogged.willing (fun name => KeyedLedger.records H (noteFits name))
      fun answer member publication said =>
        KeyedLedger.records H (answersFit answer member publication said)

/-- Seven transactions behind a published one, in blocks of at most two. The log takes its time and
brings a publication of its own. -/
theorem drains_of_empty_seven :
    let H : DigestFunction := fun bytes => ⟨UInt8.ofNat bytes.length :: List.replicate 31 0, rfl⟩
    let transaction : Nat → Transaction := fun place =>
      let payload := List.replicate (place + 1) 0
      ⟨H payload, .zero 16, UInt64.ofNat place, payload⟩
    let name := Header.digest H ⟨Digest.zero, Digest.zero, H [0], 0⟩
    let history : List Ledger.Operation :=
      [.store (transaction 0), .propose 0 0, .finalize name (.logEntry name)] ++
        (List.range 7).map fun place => .store (transaction (place + 1))
    let waiting := (List.range 7).map fun place => transaction (place + 1)
    let log : List Log.Answer := [⟨5, .published (.external [1] [2])⟩, ⟨3, .noted⟩]
    let pauses : List (List Event) := [[], [.advance 10], [.query name], [], [.advance 1]]
    ∃ entries more left,
      Drains H (start (Ledger.runAll H KeyedLedger.empty history).2 1 10 1000 log 20) pauses entries
        more waiting left ∧
      more.map (·.transactions.length) = [2, 2, 2, 1] ∧ left = [] := by
  intro H transaction name history waiting log pauses
  have operationsFit : ∀ operation ∈ history, operation.Fits := by
    simp [history, transaction, Ledger.Operation.Fits, Transaction.Fits, Publication.Fits]
    omega
  have seen := Ledger.sees_keyed_of_accepted (H := H) operationsFit (by decide +kernel)
  have willing : ∀ answer ∈ log, ∀ refusal, answer.verdict ≠ .refused refusal := by
    simp [log]
  have whole : Ledger.accepted H KeyedLedger.empty history =
      (Ledger.runAll H IndexedLedger.empty history).2.entries.flatMap (·.transactions) ++
        waiting := by
    decide +kernel
  have backlogged := Backlogged.of_start (by decide +kernel) ((KeyedLedger.window H).lists seen)
    (by decide +kernel) whole willing 1 10 1000 20
  have answersFit : ∀ answer ∈ log, AnswerFits answer := by
    simp [log, AnswerFits, Publication.Fits]
  have quiet : ∀ pause ∈ pauses, ∀ event ∈ pause, event.Quiet := by
    simp [pauses, Event.Quiet]
  obtain ⟨more, left, drains⟩ := (drains_of_empty H history _ waiting pauses quiet).2
    operationsFit _ backlogged answersFit
  exact ⟨_, more, left, drains, drains.sizes.trans (by decide +kernel),
    (drains.ends (by decide +kernel)).1⟩

end Registry

end StreamLedger
