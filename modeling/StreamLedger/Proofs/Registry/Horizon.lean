/-
This file holds each operation of a registry by a clock with a last time beside the same operation
by a clock without end. Either it returns the same, or it breaks off, and then the time at which it
ends and the time that cached statuses live are together beyond the horizon. In both cases nothing
but the cache, and what has been counted, can differ afterwards. If nothing disturbs the cache, an
operation that returns leaves it as by a clock without end.
-/
import StreamLedger.Proofs.Cache.Horizon
import StreamLedger.Proofs.Registry.Independence
import StreamLedger.Registry.Horizon

namespace StreamLedger.Registry

open Cache (Overrun)

/-- What comes of something that returns a value unless it is too late: what it has to cache is over
at the time `late`. -/
inductive Timely {horizon : Int} (late : Int) {α : Type} (value : α) :
    Except (Overrun horizon) α → Prop
  | returned : Timely late value (.ok value)
  | brokenOff {overrun : Overrun horizon} (time : overrun.time = late) :
      Timely late value (.error overrun)

namespace Timely

variable {horizon late : Int} {α : Type} {value : α} {ended : Except (Overrun horizon) α}

theorem eq_of_ok (timely : Timely late value ended) {other : α} (returned : ended = .ok other) :
    other = value := by
  cases timely with
  | returned => exact (Except.ok.inj returned).symm
  | brokenOff => cases returned

theorem eq_ok (timely : Timely late value ended) (early : late ≤ horizon) : ended = .ok value := by
  cases timely with
  | returned => rfl
  | @brokenOff overrun time =>
    have beyond := overrun.beyond
    rw [time] at beyond
    exact absurd early (Int.not_le.mpr beyond)

end Timely

/-- An operation that begins with this cache ends as by a clock without end, or it breaks off. -/
inductive Beside (horizon : Int) (before : Cache.Site) {α L : Type} :
    Except (Overrun horizon) α × Registry L → α × Registry L → Prop
  | returned (result : α) {after plain : Registry L} (alike : Alike plain after)
      (kept : after.cache.ttl = before.ttl) (same : before.faults = Cache.Faults.nothing → after = plain) :
      Beside horizon before (.ok result, after) (result, plain)
  | brokenOff (result : α) {overrun : Overrun horizon} {after plain : Registry L}
      (alike : Alike plain after) (kept : after.cache.ttl = before.ttl)
      (time : overrun.time = plain.now + before.ttl) :
      Beside horizon before (.error overrun, after) (result, plain)

namespace Beside

variable {horizon : Int} {before : Cache.Site} {α β L : Type}
  {ended : Except (Overrun horizon) α × Registry L} {plain : α × Registry L}

/-- What does not touch the cache is the same. -/
theorem unchanged (horizon : Int) (result : α) {plain : Registry L}
    (kept : plain.cache.ttl = before.ttl) :
    Beside horizon before (.ok result, plain) (result, plain) :=
  .returned result (Alike.refl plain) kept fun _ => rfl

theorem alike (beside : Beside horizon before ended plain) : Alike plain.2 ended.2 := by
  cases beside with
  | returned result alike => exact alike
  | brokenOff result alike => exact alike

/-- Entries live for as long as before. -/
theorem kept (beside : Beside horizon before ended plain) : ended.2.cache.ttl = before.ttl := by
  cases beside with
  | returned result alike kept => exact kept
  | brokenOff result alike kept => exact kept

theorem map (beside : Beside horizon before ended plain) (f : α → β) :
    Beside horizon before (ended.1.map f, ended.2) (f plain.1, plain.2) := by
  cases beside with
  | returned result alike kept same => exact .returned (f result) alike kept same
  | brokenOff result alike kept time => exact .brokenOff (f result) alike kept time

/-- Where nothing disturbs the cache, an operation that returns comes to what it comes to by a
clock without end. -/
theorem timely {γ : Type} (beside : Beside horizon before ended plain)
    (quiet : before.faults = Cache.Faults.nothing) (f : α → Registry L → γ) :
    Timely (plain.2.now + before.ttl) (f plain.1 plain.2)
      (ended.1.map fun result => f result ended.2) := by
  cases beside with
  | returned result alike kept same =>
    rw [same quiet]
    exact .returned
  | brokenOff result alike kept time => exact .brokenOff time

end Beside

/-! ### Telling the cache -/

section

variable {L : Type} (horizon : Int) (registry : Registry L)

/-- Whatever an exchange with the cache comes to, nothing but the cache changes. -/
theorem askWithin_beside {α : Type} (exchange : Cache.Exchange α)
    (asks : exchange.Asks fun call =>
      ∀ other, call.ttl? = some other → other = registry.cache.ttl) :
    Beside horizon registry.cache
      ((registry.askWithin horizon exchange).1.map fun _ => (),
        (registry.askWithin horizon exchange).2) ((), (registry.ask exchange).2) := by
  have alike (cache : Cache.Site) : Alike (registry.ask exchange).2 { registry with cache } :=
    (Alike.disturbed registry _).symm.trans (Alike.disturbed registry cache)
  have kept := Cache.Site.ttl_runWithin horizon registry.now exchange registry.cache
  simp only [askWithin]
  cases ended : registry.cache.runWithin horizon registry.now exchange with
  | mk result cache =>
    rw [ended] at kept
    cases result with
    | error overrun =>
      exact .brokenOff () (alike cache) kept (Cache.Site.time_of_runWithin asks ended)
    | ok result =>
      refine .returned () (alike cache) kept fun quiet => ?_
      rw [ask, Cache.Site.run_of_runWithin quiet ended]

theorem setStatusWithin_beside (name : Digest) (record : StatusRecord) :
    Beside horizon registry.cache
      ((registry.setStatusWithin horizon name record).1.map fun _ => (),
        (registry.setStatusWithin horizon name record).2)
      ((), registry.tryStatus name record) :=
  askWithin_beside horizon registry _
    ((Cache.update_asks name record _).mono fun _ made _ => made.ttl?_eq)

theorem statusWithin_beside [Ledger L] (name : Digest) :
    Beside horizon registry.cache
      ((registry.statusWithin horizon name).1.map fun _ => (),
        (registry.statusWithin horizon name).2)
      ((), (registry.status name).2) :=
  askWithin_beside horizon registry _
    ((Cache.query_asks name _ _).mono fun _ made _ => made.ttl?_eq)

theorem faults_tryStatus {registry : Registry L}
    (quiet : registry.cache.faults = Cache.Faults.nothing) (name : Digest)
    (record : StatusRecord) : (registry.tryStatus name record).cache.faults = Cache.Faults.nothing :=
  Cache.Site.faults_run (Cache.update name record registry.cache.ttl) quiet

theorem alike_tell (news : List (Digest × StatusRecord)) :
    Alike registry (registry.tell news) := ⟨_, registry.metrics, tell_eq registry news⟩

theorem tellWithin_beside (news : List (Digest × StatusRecord)) :
    Beside horizon registry.cache (registry.tellWithin horizon news) ((), registry.tell news) := by
  induction news generalizing registry with
  | nil => exact Beside.unchanged horizon () rfl
  | cons item rest inductionHypothesis =>
    obtain ⟨name, record⟩ := item
    have told := setStatusWithin_beside horizon registry name record
    rw [tellWithin, tell_cons]
    cases ended : registry.setStatusWithin horizon name record with
    | mk result after =>
      rw [ended] at told
      cases result with
      | error overrun =>
        cases told with
        | brokenOff _ alike kept time =>
          refine .brokenOff () ((alike_tell _ rest).symm.trans alike) kept ?_
          rw [time, (alike_tell _ rest).now_eq]
      | ok result =>
        cases told with
        | returned _ alike kept same =>
          have later := inductionHypothesis after
          dsimp only
          generalize after.tellWithin horizon rest = final at later ⊢
          cases later with
          | returned _ alikeLater keptLater sameLater =>
            refine .returned () ((alike.tell rest).trans alikeLater) (keptLater.trans kept)
              fun quiet => ?_
            obtain rfl := same quiet
            exact sameLater (faults_tryStatus quiet name record)
          | brokenOff _ alikeLater keptLater time =>
            refine .brokenOff () ((alike.tell rest).trans alikeLater) (keptLater.trans kept) ?_
            rw [time, kept, (alike.tell rest).now_eq]

theorem concludeWithin_beside {α : Type} (settled : Settled α L) :
    Beside horizon settled.registry.cache (settled.concludeWithin horizon) settled.conclude :=
  (tellWithin_beside horizon settled.registry settled.news).map fun _ => settled.result

theorem alike_count (result : Except RoundError Finalized) :
    Alike registry (registry.count result) := by
  cases result with
  | error error => exact Alike.refl registry
  | ok finalized => exact ⟨registry.cache, _, rfl⟩

theorem cache_count (result : Except RoundError Finalized) :
    (registry.count result).cache = registry.cache := by
  cases result <;> rfl

end

/-! ### Transactions and rounds -/

section

variable {L : Type} [Ledger L] (horizon : Int) (H : DigestFunction) (registry : Registry L)

theorem cache_accept (transaction : Transaction) :
    (registry.accept transaction).registry.cache = registry.cache := by
  unfold accept
  split
  · rfl
  · split <;> rfl

theorem cache_settle (round : Round) :
    (registry.settle H round).registry.cache = registry.cache := by
  unfold settle
  split
  · rfl
  · dsimp only
    split <;> rfl

theorem submitWithin_beside (transaction : Transaction) :
    Beside horizon registry.cache (registry.submitWithin horizon transaction)
      (registry.submit transaction) := by
  have concludes := concludeWithin_beside horizon (registry.accept transaction)
  rw [cache_accept] at concludes
  exact concludes

theorem finishRoundWithin_beside (round : Round) :
    Beside horizon registry.cache (registry.finishRoundWithin horizon H round)
      (registry.finishRound H round) := by
  have concludes := concludeWithin_beside horizon (registry.settle H round)
  rw [cache_settle] at concludes
  rw [finishRoundWithin, finishRound]
  generalize (registry.settle H round).concludeWithin horizon = ended at concludes ⊢
  generalize (registry.settle H round).conclude = plain at concludes ⊢
  cases concludes with
  | returned result alike kept same =>
    refine .returned result (alike.count result) ?_ fun quiet => ?_
    · rw [cache_count, kept]
    · rw [same quiet]
  | brokenOff result alike kept time =>
    refine .brokenOff result ((alike_count _ result).symm.trans alike) kept ?_
    rw [time, (alike_count _ result).now_eq]

theorem roundWithin_beside (idle : registry.service = none) :
    Beside horizon registry.cache (registry.roundWithin horizon H) (registry.round H) := by
  obtain ⟨ledger, log, same⟩ := registry.exists_beginRound_eq (H := H)
  rw [roundWithin, round_of_idle idle]
  cases began : registry.beginRound H with
  | mk result begun =>
    rw [began] at same
    match result with
    | .error error | .ok none =>
      exact Beside.unchanged horizon _ (congrArg (·.cache.ttl) same)
    | .ok (some round) =>
      have sameCache : begun.cache = registry.cache := congrArg (·.cache) same
      rw [← sameCache]
      exact (finishRoundWithin_beside horizon H { begun with now := round.answered } round).map
        (·.map some)

end

/-! ### Events -/

section

variable {L : Type} [Ledger L] (horizon : Int) (H : DigestFunction)

/-- An event by a clock with a last time. No service runs beside it. -/
def Event.runWithin (registry : Registry L) :
    Event → Except (Overrun horizon) Unit × Registry L
  | .submit transaction =>
    let (ended, registry) := registry.submitWithin horizon transaction
    (ended.map fun _ => (), registry)
  | .markPending name =>
    let (ended, registry) := registry.setStatusWithin horizon name (.bare .pending)
    (ended.map fun _ => (), registry)
  | .setStatus name record =>
    let (ended, registry) := registry.setStatusWithin horizon name record
    (ended.map fun _ => (), registry)
  | .query name =>
    let (ended, registry) := registry.statusWithin horizon name
    (ended.map fun _ => (), registry)
  | .round =>
    let (ended, registry) := registry.roundWithin horizon H
    (ended.map fun _ => (), registry)
  | event => (.ok (), event.run H registry)

end

theorem Event.runWithin_beside {L : Type} [Ledger L] (horizon : Int) (H : DigestFunction)
    {registry : Registry L} (idle : registry.service = none) (event : Event) :
    Beside horizon registry.cache (event.runWithin horizon H registry)
      ((), event.run H registry) := by
  cases event with
  | submit transaction => exact (submitWithin_beside horizon registry transaction).map fun _ => ()
  | markPending name => exact setStatusWithin_beside horizon registry name _
  | setStatus name record => exact setStatusWithin_beside horizon registry name record
  | query name => exact statusWithin_beside horizon registry name
  | round => exact (roundWithin_beside horizon H registry idle).map fun _ => ()
  | propose maxExponent =>
    refine Beside.unchanged horizon () ?_
    simp only [Event.run]
    split <;> rfl
  | advance milliseconds =>
    refine Beside.unchanged horizon () ?_
    simp only [Event.run, Registry.advance, serve_of_idle idle]

/-- A query answers as by a clock without end, unless nothing is live and the answer would be kept
beyond the horizon. -/
theorem Tidy.statusWithin_fst {L : Type} [Ledger L] {registry : Registry L} (tidy : Tidy registry)
    (horizon : Int) (name : Digest) :
    (registry.statusWithin horizon name).1 =
      if breaks : registry.peek name = none ∧ horizon < registry.now + registry.cache.ttl then
        .error ⟨_, breaks.2⟩
      else .ok ((registry.peek name).getD (.bare (registry.ledgerStatus name))) := by
  simp only [statusWithin, askWithin]
  cases found : registry.peek name with
  | some record =>
    rw [Cache.Site.runWithin_query_of_peek tidy.quiet found]
    simp
  | none =>
    rw [Cache.Site.runWithin_query_of_none tidy.quiet (tidy.get_eq_none_iff.mpr found)]
    simp

end StreamLedger.Registry
