/-
This file lets rounds overlap. A round has three steps: it asks the ledger for its next block, it
hands the block's header to the log, and it ends with what the log has answered. Between its steps
transactions may be stored, and other rounds may take steps of theirs. What each step can do is said
once, for a ledger of any kind; a ledger in memory then keeps the headers that were handed over, the
publications of its blocks and the results of the rounds in agreement.
-/
import StreamLedger.Proofs.Ledger.Growth
import StreamLedger.Proofs.Registry.Events

namespace StreamLedger

namespace Registry

/-! ### Rounds that overlap -/

deriving instance DecidableEq for Except, Round

/-- How far a round has come. -/
inductive Stage where
  | offered (proposal : Proposal)
  /-- The header was handed to the log, and the answer is on its way. -/
  | waits (round : Round)
  | ended (result : Except RoundError (Option Finalized))
deriving DecidableEq

/-- A registry, and rounds of it that may overlap. -/
structure Overlap (L : Type) where
  registry : Registry L
  /-- The rounds, in the order in which they began. -/
  rounds : List Stage
  /-- The headers that were handed to the log with its answers, the first one first. -/
  handed : List (Header × Except Log.Refusal Publication)
  /-- What was stored, the first one first. -/
  stored : List Transaction

namespace Overlap

/-- What may happen next. -/
inductive Move where
  | store (transaction : Transaction)
  /-- The clock shows a time. -/
  | time (now : Int)
  /-- A round begins and asks the ledger for its next block. -/
  | offer
  | hand (place : Nat)
  | finish (place : Nat)
deriving DecidableEq

section

variable {L : Type}

def start (ledger : L) (cache : Cache.Site) (maxExponent : Nat) (log : List Log.Answer)
    (now : Int) : Overlap L :=
  ⟨⟨ledger, cache, maxExponent, log, now, ⟨0, 0, 0⟩, none⟩, [], [], []⟩

variable [Ledger L] (H : DigestFunction) (overlap : Overlap L)

def move : Move → Overlap L
  | .store transaction =>
    match overlap.registry.submit transaction with
    | (.ok _, registry) => { overlap with registry, stored := overlap.stored ++ [transaction] }
    | (.error _, registry) => { overlap with registry }
  | .time now => { overlap with registry := { overlap.registry with now } }
  | .offer =>
    match overlap.registry.offer H with
    | (.error error, registry) =>
      { overlap with registry, rounds := overlap.rounds ++ [.ended (.error error)] }
    | (.ok none, registry) =>
      { overlap with registry, rounds := overlap.rounds ++ [.ended (.ok none)] }
    | (.ok (some proposal), registry) =>
      { overlap with registry, rounds := overlap.rounds ++ [.offered proposal] }
  | .hand place =>
    match overlap.rounds[place]? with
    | some (.offered proposal) =>
      let (round, registry) := overlap.registry.handOver H proposal
      { overlap with
        registry
        rounds := overlap.rounds.set place (.waits round)
        handed := overlap.handed ++ [(proposal.header, round.answer)] }
    | some (.waits _) | some (.ended _) | none => overlap
  | .finish place =>
    match overlap.rounds[place]? with
    | some (.waits round) =>
      let (result, registry) := overlap.registry.finishRound H round
      { overlap with registry, rounds := overlap.rounds.set place (.ended (result.map some)) }
    | some (.offered _) | some (.ended _) | none => overlap

def run (moves : List Move) : Overlap L := moves.foldl (move H) overlap

/-- A round is at its end, with this result. -/
def Ended (overlap : Overlap L) (place : Nat) (result : Except RoundError (Option Finalized)) :
    Prop :=
  overlap.rounds[place]? = some (.ended result)

instance (overlap : Overlap L) (place : Nat) (result : Except RoundError (Option Finalized)) :
    Decidable (overlap.Ended place result) :=
  inferInstanceAs (Decidable (_ = _))

/-- The next move is a step of this round. -/
def Owns (overlap : Overlap L) (place : Nat) : Move → Prop
  | .offer => overlap.rounds.length = place
  | .hand other | .finish other => other = place
  | .store _ | .time _ => False

/-! ### What a move can do -/

/-- The ways in which a round may end. -/
inductive Finishes (H : DigestFunction) (registry : Registry L) (round : Round) :
    Except RoundError Finalized → Registry L → Prop
  | unpublished {refusal : Log.Refusal} (answer : round.answer = .error refusal) :
      Finishes H registry round (.error (.publish refusal)) registry
  | late {publication : Publication} {error : LedgerError} (answer : round.answer = .ok publication)
      (refused : Ledger.finalize registry.ledger (round.proposal.digest H) publication =
        .error error) :
      Finishes H registry round (.error (.ledger error)) registry
  | published {publication : Publication} {ledger : L} (cache : Cache.Site) (metrics : Metrics)
      (answer : round.answer = .ok publication)
      (accepted : Ledger.finalize registry.ledger (round.proposal.digest H) publication =
        .ok ledger) :
      Finishes H registry round
        (.ok ⟨round.proposal.digest H, round.proposal.transactions.length⟩)
        { registry with ledger, cache, metrics }

theorem finishes (registry : Registry L) (round : Round) :
    Finishes H registry round (registry.finishRound H round).1
      (registry.finishRound H round).2 := by
  simp only [finishRound, settle]
  cases answer : round.answer with
  | error refusal => exact .unpublished answer
  | ok publication =>
    cases finalized : Ledger.finalize registry.ledger (round.proposal.digest H) publication with
    | error error =>
      simp only [finalized]
      exact .late answer finalized
    | ok ledger =>
      simp only [finalized, Settled.conclude]
      rw [tell_eq]
      exact .published _ _ answer finalized

theorem Finishes.log_eq {H : DigestFunction} {registry after : Registry L} {round : Round}
    {result : Except RoundError Finalized} (finishes : Finishes H registry round result after) :
    after.log = registry.log := by
  cases finishes <;> rfl

/-- The ways in which a move may go. -/
inductive Moves (H : DigestFunction) (overlap : Overlap L) : Move → Overlap L → Prop
  /-- The round has not come to this step, or is past it. -/
  | notOffered {place : Nat}
      (absent : ∀ proposal, overlap.rounds[place]? ≠ some (.offered proposal)) :
      Moves H overlap (.hand place) overlap
  | notWaiting {place : Nat} (absent : ∀ round, overlap.rounds[place]? ≠ some (.waits round)) :
      Moves H overlap (.finish place) overlap
  | stored {transaction : Transaction} {ledger : L} (cache : Cache.Site)
      (accepted : Ledger.store overlap.registry.ledger transaction = .ok ledger) :
      Moves H overlap (.store transaction)
        { overlap with
          registry := { overlap.registry with ledger, cache }
          stored := overlap.stored ++ [transaction] }
  | unstored {transaction : Transaction} {error : LedgerError} (cache : Cache.Site)
      (refused : Ledger.store overlap.registry.ledger transaction = .error error) :
      Moves H overlap (.store transaction)
        { overlap with registry := { overlap.registry with cache } }
  | timed (now : Int) :
      Moves H overlap (.time now) { overlap with registry := { overlap.registry with now } }
  | refused {error : LedgerError}
      (refused : Ledger.propose H overlap.registry.maxExponent (Int64.ofInt overlap.registry.now)
        overlap.registry.ledger = .error error) :
      Moves H overlap .offer
        { overlap with rounds := overlap.rounds ++ [.ended (.error (.ledger error))] }
  | idle {ledger : L}
      (answered : Ledger.propose H overlap.registry.maxExponent (Int64.ofInt overlap.registry.now)
        overlap.registry.ledger = .ok (none, ledger)) :
      Moves H overlap .offer
        { overlap with
          registry := { overlap.registry with ledger }
          rounds := overlap.rounds ++ [.ended (.ok none)] }
  | offered {proposal : Proposal} {ledger : L}
      (answered : Ledger.propose H overlap.registry.maxExponent (Int64.ofInt overlap.registry.now)
        overlap.registry.ledger = .ok (some proposal, ledger)) :
      Moves H overlap .offer
        { overlap with
          registry := { overlap.registry with ledger }
          rounds := overlap.rounds ++ [.offered proposal] }
  | handed {place : Nat} {proposal : Proposal}
      (begun : overlap.rounds[place]? = some (.offered proposal)) :
      Moves H overlap (.hand place)
        { overlap with
          registry := { overlap.registry with log := overlap.registry.log.tail }
          rounds := overlap.rounds.set place (.waits (overlap.registry.handOver H proposal).1)
          handed := overlap.handed ++
            [(proposal.header, (overlap.registry.handOver H proposal).1.answer)] }
  | finished {place : Nat} {round : Round} {result : Except RoundError Finalized}
      {registry : Registry L} (waits : overlap.rounds[place]? = some (.waits round))
      (finishes : Finishes H overlap.registry round result registry) :
      Moves H overlap (.finish place)
        { overlap with
          registry, rounds := overlap.rounds.set place (.ended (result.map some)) }

theorem moves (move : Move) : Moves H overlap move (overlap.move H move) := by
  cases move with
  | store transaction =>
    simp only [Overlap.move, submit, accept]
    cases stored : Ledger.store overlap.registry.ledger transaction with
    | ok ledger => exact .stored _ stored
    | error error =>
      by_cases unknown : overlap.registry.ledgerStatus transaction.digest = .unknown
      · simp only [if_pos unknown]
        exact .unstored _ stored
      · simp only [if_neg unknown]
        exact .unstored _ stored
  | time now => exact .timed now
  | offer =>
    simp only [Overlap.move, Registry.offer]
    cases answered : Ledger.propose H overlap.registry.maxExponent
        (Int64.ofInt overlap.registry.now) overlap.registry.ledger with
    | error error => exact .refused answered
    | ok result =>
      obtain ⟨proposal, ledger⟩ := result
      cases proposal with
      | none => exact .idle answered
      | some proposal => exact .offered answered
  | hand place =>
    simp only [Overlap.move]
    split
    · rename_i begun
      exact .handed begun
    all_goals
      rename_i there
      exact .notOffered fun proposal => by simp [there]
  | finish place =>
    simp only [Overlap.move]
    split
    · rename_i round waits
      exact .finished waits (finishes H overlap.registry round)
    all_goals
      rename_i there
      exact .notWaiting fun round => by simp [there]

end

/-! ### What becomes of a round -/

/-- A round that is not at its end has come to a stage, and the others are where they were. -/
structure Advance (rounds : List Stage) (place : Nat) (stage : Stage) (after : List Stage) :
    Prop where
  unended : ∀ result, rounds[place]? ≠ some (.ended result)
  here : after[place]? = some stage
  others : ∀ other, other ≠ place → after[other]? = rounds[other]?

namespace Advance

variable {rounds after : List Stage} {place other : Nat} {stage : Stage}

theorem append (rounds : List Stage) (stage : Stage) :
    Advance rounds rounds.length stage (rounds ++ [stage]) where
  unended result standing := by
    rw [List.getElem?_eq_none (Nat.le_refl _)] at standing
    cases standing
  here := by simp
  others other apart := by rw [IndexedLedger.getElem?_append_singleton, if_neg apart]

theorem set {old : Stage} (there : rounds[place]? = some old)
    (goesOn : ∀ result, old ≠ .ended result) (stage : Stage) :
    Advance rounds place stage (rounds.set place stage) where
  unended result standing := by
    rw [there] at standing
    exact goesOn result (Option.some.inj standing)
  here := List.getElem?_set_self (List.getElem?_eq_some_iff.mp there).1
  others other apart := List.getElem?_set_ne apart.symm

theorem of_getElem? (advance : Advance rounds place stage after) {found : Stage}
    (standing : after[other]? = some found) :
    rounds[other]? = some found ∨ other = place ∧ found = stage := by
  by_cases same : other = place
  · rw [same, advance.here] at standing
    exact Or.inr ⟨same, (Option.some.inj standing).symm⟩
  · exact Or.inl ((advance.others other same).symm.trans standing)

theorem of_mem (advance : Advance rounds place stage after) {found : Stage}
    (member : found ∈ after) : found ∈ rounds ∨ found = stage := by
  obtain ⟨other, standing⟩ := List.mem_iff_getElem?.mp member
  exact (advance.of_getElem? standing).imp List.mem_of_getElem? (·.2)

/-- A round that was at its end stays there. -/
theorem ended (advance : Advance rounds place stage after)
    {result : Except RoundError (Option Finalized)}
    (standing : rounds[other]? = some (.ended result)) : after[other]? = some (.ended result) := by
  have apart : other ≠ place := fun same => advance.unended result (same ▸ standing)
  rw [advance.others other apart, standing]

end Advance

section

variable {L : Type} [Ledger L] {H : DigestFunction} {overlap after : Overlap L} {move : Move}
  {place : Nat} {result : Except RoundError (Option Finalized)}

/-- What a round has come to is its end. -/
theorem Moves.ended (moves : Moves H overlap move after) (ended : overlap.Ended place result) :
    after.Ended place result := by
  cases moves with
  | refused _ | idle _ | offered _ => exact (Advance.append _ _).ended ended
  | handed begun => exact (Advance.set begun nofun _).ended ended
  | finished waits _ => exact (Advance.set waits nofun _).ended ended
  | _ => exact ended

theorem Moves.isPrefix_stored (moves : Moves H overlap move after) :
    overlap.stored <+: after.stored := by
  cases moves with
  | stored _ _ => exact List.prefix_append _ _
  | _ => exact List.prefix_refl _

theorem isPrefix_stored_run (overlap : Overlap L) (moves : List Move) :
    overlap.stored <+: (overlap.run H moves).stored := by
  induction moves generalizing overlap with
  | nil => exact List.prefix_refl _
  | cons move moves inductionHypothesis =>
    exact (overlap.moves H move).isPrefix_stored.trans (inductionHypothesis _)

theorem run_append (past future : List Move) :
    overlap.run H (past ++ future) = (overlap.run H past).run H future :=
  List.foldl_append

theorem Ended.run (ended : overlap.Ended place result) (moves : List Move) :
    (overlap.run H moves).Ended place result := by
  induction moves generalizing overlap with
  | nil => exact ended
  | cons move moves inductionHypothesis =>
    exact inductionHypothesis ((overlap.moves H move).ended ended)

/-- The later steps of a round change the ledger only if the round succeeds. -/
theorem Moves.ledger_eq (moves : Moves H overlap move after) (owns : overlap.Owns place move)
    (later : move ≠ .offer) (fruitless : ∀ finalized, ¬ after.Ended place (.ok (some finalized))) :
    after.registry.ledger = overlap.registry.ledger := by
  cases moves with
  | stored _ _ | unstored _ _ => cases owns
  | timed now => cases owns
  | refused _ | idle _ | offered _ => exact absurd rfl later
  | finished waits finishes =>
    obtain rfl := owns
    cases finishes with
    | unpublished _ | late _ _ => rfl
    | published _ _ _ _ => exact absurd (Advance.set waits nofun _).here (fruitless _)
  | _ => rfl

end

end Overlap

end Registry

end StreamLedger
