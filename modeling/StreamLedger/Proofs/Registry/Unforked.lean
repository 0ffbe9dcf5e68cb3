/-
This file proves that rounds which overlap never fork the chain of a ledger. Every header that is
handed to the log is that of a block, and the first time it is that of the next block; a publication
is what the log has answered to the block's header; a block is reported by one round only; and a
round that fails has left nothing behind but, at most, a block that waits for its publication. The
proof is about the ledger in memory. Rounds over a ledger in a table take the same steps, as long as
it is seen as the one in memory.
-/
import Mathlib.Data.List.Nodup
import StreamLedger.Proofs.Registry.Coherence
import StreamLedger.Proofs.Registry.Overlap

namespace StreamLedger

namespace Registry

namespace Overlap

/-! ### Rounds and the chain -/

/-- A round has reported that it finalized a block. -/
def Succeeds (rounds : List Stage) (place : Nat) (finalized : Finalized) : Prop :=
  rounds[place]? = some (.ended (.ok (some finalized)))

/-- A round has failed. -/
def Fails (rounds : List Stage) (place : Nat) (error : RoundError) : Prop :=
  rounds[place]? = some (.ended (.error error))

/-- Why a round may fail: the log has turned its header down, or another round has finalized the
block. -/
def Excused (rounds : List Stage) (handed : List (Header × Except Log.Refusal Publication))
    (error : RoundError) : Prop :=
  (∃ header refusal, error = .publish refusal ∧ (header, .error refusal) ∈ handed) ∨
    ∃ other finalized, Succeeds rounds other finalized ∧
      error = .ledger (.notPending finalized.block)

/-- The blocks of a chain, the headers that were handed over and the results of the rounds go
together. -/
structure Orderly (H : DigestFunction) (rounds : List Stage)
    (handed : List (Header × Except Log.Refusal Publication)) (blocks : List Block) : Prop where
  /-- A header that is handed over for the first time is that of the next block. -/
  inOrder : (handed.map Prod.fst).eraseDups <+: blocks.map (·.header)
  /-- A publication is what the log has answered to this header. -/
  published : ∀ block ∈ blocks, ∀ publication, block.publication = some publication →
    (block.header, .ok publication) ∈ handed
  settled : ∀ block ∈ blocks, block.isFinalized = true →
    ∃ place finalized, Succeeds rounds place finalized ∧ finalized.block = block.digest H
  succeeded : ∀ place finalized, Succeeds rounds place finalized →
    ∃ block ∈ blocks, block.isFinalized = true ∧ finalized.block = block.digest H
  /-- No two rounds report the same block. -/
  once : ∀ place other finalized again, Succeeds rounds place finalized →
    Succeeds rounds other again → finalized.block = again.block → place = other
  failed : ∀ place error, Fails rounds place error → Excused rounds handed error

theorem eraseDups_concat_prefix {α : Type} [DecidableEq α] {list earlier : List α}
    {last element : α} (inOrder : list.eraseDups <+: earlier ++ [last])
    (distinct : (earlier ++ [last]).Nodup) (whole : earlier ⊆ list)
    (member : element ∈ earlier ++ [last]) :
    (list ++ [element]).eraseDups <+: earlier ++ [last] := by
  rw [List.eraseDups_append]
  by_cases known : element ∈ list
  · have nothing : [element].removeAll list = [] := by simp [List.removeAll, known]
    rw [nothing]
    simpa using inOrder
  · have new : [element].removeAll list = [element] := by simp [List.removeAll, known]
    rw [new]
    rcases List.prefix_concat_iff.mp inOrder with all | before
    · rw [← all, List.mem_eraseDups] at member
      exact absurd member known
    · have complete : list.eraseDups = earlier := by
        refine before.eq_of_length_le ?_
        refine (List.nodup_append.mp distinct).1.length_le_of_subset fun other here => ?_
        exact List.mem_eraseDups.mpr (whole here)
      rw [complete]
      have final : element = last := by
        rcases List.mem_append.mp member with early | final
        · exact absurd (whole early) known
        · exact List.mem_singleton.mp final
      rw [final]
      exact List.prefix_refl _

namespace Orderly

variable {H : DigestFunction} {rounds after : List Stage} {place : Nat} {stage : Stage}
  {handed : List (Header × Except Log.Refusal Publication)} {blocks earlier : List Block}
  {block : Block}

theorem start (H : DigestFunction) : Orderly H [] [] [] where
  inOrder := List.prefix_refl _
  published := nofun
  settled := nofun
  succeeded := nofun
  once := nofun
  failed := nofun

/-- Every header that was handed over is that of a block. -/
theorem listed (orderly : Orderly H rounds handed blocks) {header : Header}
    {answer : Except Log.Refusal Publication} (member : (header, answer) ∈ handed) :
    header ∈ blocks.map (·.header) :=
  orderly.inOrder.subset (List.mem_eraseDups.mpr (List.mem_map_of_mem member))

/-- A round may go on as long as it does not succeed, and fail if it has an excuse. -/
theorem advance (orderly : Orderly H rounds handed blocks)
    (advance : Advance rounds place stage after)
    (fruitless : ∀ finalized, stage ≠ .ended (.ok (some finalized)))
    (excused : ∀ error, stage = .ended (.error error) → Excused rounds handed error) :
    Orderly H after handed blocks := by
  have earlierOf : ∀ other finalized, Succeeds after other finalized →
      Succeeds rounds other finalized := fun other finalized standing =>
    (advance.of_getElem? standing).resolve_right fun new => fruitless finalized new.2.symm
  refine { orderly with settled := ?_, succeeded := ?_, once := ?_, failed := ?_ }
  · intro block member finalized
    obtain ⟨other, result, success, same⟩ := orderly.settled block member finalized
    exact ⟨other, result, advance.ended success, same⟩
  · exact fun other finalized success =>
      orderly.succeeded other finalized (earlierOf other finalized success)
  · exact fun first second finalized again success successAgain =>
      orderly.once first second finalized again (earlierOf first finalized success)
        (earlierOf second again successAgain)
  · intro other error fails
    have excuse : Excused rounds handed error := by
      rcases advance.of_getElem? fails with before | ⟨_, new⟩
      · exact orderly.failed other error before
      · exact excused error new.symm
    refine excuse.imp_right ?_
    rintro ⟨winner, finalized, success, same⟩
    exact ⟨winner, finalized, advance.ended success, same⟩

/-- A new block at the end of the chain changes nothing. -/
theorem extended (orderly : Orderly H rounds handed blocks) (pending : block.publication = none) :
    Orderly H rounds handed (blocks ++ [block]) := by
  refine { orderly with inOrder := ?_, published := ?_, settled := ?_, succeeded := ?_ }
  · rw [List.map_append]
    exact orderly.inOrder.trans (List.prefix_append _ _)
  · intro other member publication receipt
    rcases List.mem_append.mp member with early | last
    · exact orderly.published other early publication receipt
    · rw [List.mem_singleton.mp last, pending] at receipt
      cases receipt
  · intro other member finalized
    rcases List.mem_append.mp member with early | last
    · exact orderly.settled other early finalized
    · rw [List.mem_singleton.mp last, Block.isFinalized, pending] at finalized
      cases finalized
  · intro other finalized success
    obtain ⟨listed, member, rest⟩ := orderly.succeeded other finalized success
    exact ⟨listed, List.mem_append_left _ member, rest⟩

/-- Where every block but the last has been published, a header of the chain that is handed over was
handed over before, or it is the last one's. -/
theorem handOver (orderly : Orderly H rounds handed (earlier ++ [block]))
    (distinct : ((earlier ++ [block]).map (·.digest H)).Nodup)
    (published : ∀ other ∈ earlier, other.isFinalized = true) {header : Header}
    (listed : header ∈ (earlier ++ [block]).map (·.header))
    (answer : Except Log.Refusal Publication) :
    Orderly H rounds (handed ++ [(header, answer)]) (earlier ++ [block]) := by
  refine { orderly with inOrder := ?_, published := ?_, failed := ?_ }
  · have headers : ((earlier ++ [block]).map (·.header)).Nodup := by
      refine List.Nodup.of_map (·.digest H) ?_
      rw [List.map_map]
      exact distinct
    have known : earlier.map (·.header) ⊆ handed.map Prod.fst := by
      intro other member
      obtain ⟨first, early, rfl⟩ := List.mem_map.mp member
      obtain ⟨publication, receipt⟩ := Option.isSome_iff_exists.mp (published first early)
      exact List.mem_map_of_mem
        (orderly.published first (List.mem_append_left _ early) publication receipt)
    have inOrder := orderly.inOrder
    rw [List.map_append, List.map_singleton] at inOrder headers listed ⊢
    rw [List.map_append, List.map_singleton]
    exact eraseDups_concat_prefix inOrder headers known listed
  · intro other member publication receipt
    exact List.mem_append_left _ (orderly.published other member publication receipt)
  · intro other error fails
    refine (orderly.failed other error fails).imp_left ?_
    rintro ⟨header, refusal, same, member⟩
    exact ⟨header, refusal, same, List.mem_append_left _ member⟩

/-- A round that publishes the last block is the first to report it. -/
theorem finished (orderly : Orderly H rounds handed (earlier ++ [block]))
    (distinct : ((earlier ++ [block]).map (·.digest H)).Nodup) (pending : block.publication = none)
    {publication : Publication} (answered : (block.header, .ok publication) ∈ handed)
    {finalized : Finalized} (name : finalized.block = block.digest H)
    (advance : Advance rounds place (.ended (.ok (some finalized))) after) :
    Orderly H after handed (earlier ++ [{ block with publication := some publication }]) := by
  have last : block ∈ earlier ++ [block] := List.mem_append_right _ List.mem_cons_self
  have fresh : ∀ other again, Succeeds rounds other again → again.block ≠ block.digest H := by
    intro other again success same
    obtain ⟨listed, member, published, digest⟩ := orderly.succeeded other again success
    obtain rfl := List.inj_on_of_nodup_map distinct member last (digest.symm.trans same)
    rw [Block.isFinalized, pending] at published
    cases published
  have unfinished : ∀ other ∈ earlier ++ [block], other.isFinalized = true → other ∈ earlier := by
    intro other member published
    rcases List.mem_append.mp member with early | final
    · exact early
    · rw [List.mem_singleton.mp final, Block.isFinalized, pending] at published
      cases published
  constructor
  · have headers := orderly.inOrder
    rw [List.map_append] at headers ⊢
    exact headers
  · intro other member receipt here
    rcases List.mem_append.mp member with early | final
    · exact orderly.published other (List.mem_append_left _ early) receipt here
    · rw [List.mem_singleton.mp final] at here ⊢
      cases here
      exact answered
  · intro other member published
    rcases List.mem_append.mp member with early | final
    · obtain ⟨winner, result, success, same⟩ :=
        orderly.settled other (List.mem_append_left _ early) published
      exact ⟨winner, result, advance.ended success, same⟩
    · rw [List.mem_singleton.mp final]
      exact ⟨place, finalized, advance.here, name⟩
  · intro other result success
    rcases advance.of_getElem? success with before | ⟨_, new⟩
    · obtain ⟨listed, member, published, digest⟩ := orderly.succeeded other result before
      exact ⟨listed, List.mem_append_left _ (unfinished listed member published), published, digest⟩
    · cases new
      exact ⟨_, List.mem_append_right _ List.mem_cons_self, rfl, name⟩
  · intro first second result again success successAgain same
    rcases advance.of_getElem? success with before | ⟨firstHere, new⟩
    · rcases advance.of_getElem? successAgain with beforeAgain | ⟨_, new⟩
      · exact orderly.once first second result again before beforeAgain same
      · cases new
        exact absurd (same.trans name) (fresh first result before)
    · cases new
      rcases advance.of_getElem? successAgain with beforeAgain | ⟨secondHere, _⟩
      · exact absurd (same.symm.trans name) (fresh second again beforeAgain)
      · rw [firstHere, secondHere]
  · intro other error fails
    rcases advance.of_getElem? fails with before | ⟨_, new⟩
    · refine (orderly.failed other error before).imp_right ?_
      rintro ⟨winner, result, success, same⟩
      exact ⟨winner, result, advance.ended success, same⟩
    · cases new

end Orderly

/-! ### What every move keeps -/

/-- A round that has not ended has a block of the chain, and the log has answered to the header it
was handed. -/
def Listed (blocks : List Block) (handed : List (Header × Except Log.Refusal Publication)) :
    Stage → Prop
  | .offered proposal => proposal.header ∈ blocks.map (·.header)
  | .waits round => round.proposal.header ∈ blocks.map (·.header) ∧
    (round.proposal.header, round.answer) ∈ handed
  | .ended _ => True

theorem Listed.mono {blocks more : List Block}
    {handed later : List (Header × Except Log.Refusal Publication)} {stage : Stage}
    (listed : Listed blocks handed stage)
    (blocksKept : blocks.map (·.header) ⊆ more.map (·.header)) (handedKept : handed ⊆ later) :
    Listed more later stage := by
  cases stage with
  | offered proposal => exact blocksKept listed
  | waits round => exact ⟨blocksKept listed.1, handedKept listed.2⟩
  | ended result => trivial

/-- The ledger is sound and has what was stored, and the rounds go with its chain, provided that no
two blocks share a name. -/
structure Intact (H : DigestFunction) (overlap : Overlap IndexedLedger) : Prop where
  sound : overlap.registry.ledger.Sound H
  stored : overlap.registry.ledger.transactions = overlap.stored
  listed : ∀ stage ∈ overlap.rounds, Listed overlap.registry.ledger.blocks overlap.handed stage
  orderly : (overlap.registry.ledger.blocks.map (·.digest H)).Nodup →
    Orderly H overlap.rounds overlap.handed overlap.registry.ledger.blocks

section

variable {H : DigestFunction} {overlap after : Overlap IndexedLedger} {move : Move}

theorem intact_start (H : DigestFunction) (cache : Cache.Site) (maxExponent : Nat)
    (log : List Log.Answer) (now : Int) :
    Intact H (start IndexedLedger.empty cache maxExponent log now) where
  sound := IndexedLedger.sound_empty H
  stored := rfl
  listed := nofun
  orderly _ := .start H

/-- A round goes on, and the ledger stays as it is. -/
theorem Intact.advanced (intact : Intact H overlap) {place : Nat} {stage : Stage}
    {rounds : List Stage} (advance : Advance overlap.rounds place stage rounds)
    (listed : Listed overlap.registry.ledger.blocks overlap.handed stage)
    (fruitless : ∀ finalized, stage ≠ .ended (.ok (some finalized)))
    (excused : (overlap.registry.ledger.blocks.map (·.digest H)).Nodup →
      ∀ error, stage = .ended (.error error) → Excused overlap.rounds overlap.handed error) :
    Intact H { overlap with rounds } where
  sound := intact.sound
  stored := intact.stored
  listed found member := by
    rcases advance.of_mem member with before | rfl
    · exact intact.listed found before
    · exact listed
  orderly distinct := (intact.orderly distinct).advance advance fruitless (excused distinct)

/-- A block is made at the end of the chain. -/
theorem Intact.extended (intact : Intact H overlap) {maxExponent : Nat} {header : Header}
    (settled : ∀ block ∈ overlap.registry.ledger.blocks.getLast?, block.isFinalized = true)
    (waiting : Block.nextPosition overlap.registry.ledger.blocks.getLast? <
      UInt64.ofNat overlap.registry.ledger.transactions.length) :
    Intact H { overlap with
      registry := { overlap.registry with
        ledger := overlap.registry.ledger.extended H
          (overlap.registry.ledger.nextBlock maxExponent header) } } where
  sound := intact.sound.extended settled waiting
  stored := intact.stored
  listed stage member := by
    refine (intact.listed stage member).mono ?_ (List.Subset.refl _)
    exact List.map_subset _ (List.subset_append_left _ _)
  orderly distinct := by
    refine (intact.orderly ?_).extended rfl
    rw [IndexedLedger.extended, List.map_append] at distinct
    exact (List.nodup_append.mp distinct).1

/-- A header is handed to the log. -/
theorem Intact.handOver (intact : Intact H overlap) {place : Nat} {proposal : Proposal}
    (begun : overlap.rounds[place]? = some (.offered proposal)) :
    Intact H { overlap with
      registry := { overlap.registry with log := overlap.registry.log.tail }
      rounds := overlap.rounds.set place (.waits (overlap.registry.handOver H proposal).1)
      handed := overlap.handed ++
        [(proposal.header, (overlap.registry.handOver H proposal).1.answer)] } := by
  have offered : proposal.header ∈ overlap.registry.ledger.blocks.map (·.header) :=
    intact.listed _ (List.mem_of_getElem? begun)
  have advance := Advance.set begun nofun (.waits (overlap.registry.handOver H proposal).1)
  refine ⟨intact.sound, intact.stored, fun stage member => ?_, fun distinct => ?_⟩
  · rcases advance.of_mem member with before | rfl
    · exact (intact.listed stage before).mono (List.Subset.refl _) (List.subset_append_left _ _)
    · exact ⟨offered, List.mem_append_right _ List.mem_cons_self⟩
  · have nonempty : overlap.registry.ledger.blocks ≠ [] := by
      rintro empty
      rw [empty] at offered
      cases offered
    have settled := intact.sound.settled
    have orderly := intact.orderly distinct
    dsimp only at distinct ⊢
    rw [← List.dropLast_append_getLast nonempty] at orderly distinct offered ⊢
    exact (orderly.handOver distinct settled offered _).advance advance nofun nofun

/-- A round comes too late only if another has finalized its block. -/
theorem Intact.excused (intact : Intact H overlap) {place : Nat} {round : Round}
    (waits : overlap.rounds[place]? = some (.waits round)) {publication : Publication}
    {error : LedgerError}
    (refused :
      overlap.registry.ledger.finalize (round.proposal.digest H) publication = .error error)
    (distinct : (overlap.registry.ledger.blocks.map (·.digest H)).Nodup) :
    Excused overlap.rounds overlap.handed (.ledger error) := by
  obtain ⟨block, member, header⟩ :=
    List.mem_map.mp (intact.listed _ (List.mem_of_getElem? waits)).1
  have name : round.proposal.digest H = block.digest H := congrArg (Header.digest H) header.symm
  rw [name] at refused
  obtain ⟨rfl, other, otherMember, same, finalized⟩ :=
    intact.sound.of_finalize_eq_error member refused
  obtain ⟨winner, result, success, digest⟩ :=
    (intact.orderly distinct).settled other otherMember finalized
  exact Or.inr ⟨winner, result, success, by rw [digest, same]⟩

/-- A round publishes the last block. -/
theorem Intact.published (intact : Intact H overlap) {place : Nat} {round : Round}
    (waits : overlap.rounds[place]? = some (.waits round)) {publication : Publication}
    (answer : round.answer = .ok publication) {ledger : IndexedLedger}
    (accepted : overlap.registry.ledger.finalize (round.proposal.digest H) publication = .ok ledger)
    (cache : Cache.Site) (metrics : Metrics) :
    Intact H { overlap with
      registry := { overlap.registry with ledger, cache, metrics }
      rounds := overlap.rounds.set place (.ended (.ok (some
        ⟨round.proposal.digest H, round.proposal.transactions.length⟩))) } := by
  obtain ⟨earlier, block, whole, pending, digest, rfl⟩ := intact.sound.of_finalize_eq_ok accepted
  have advance := Advance.set waits nofun (.ended (.ok (some
    ⟨round.proposal.digest H, round.proposal.transactions.length⟩)))
  have headers : (earlier ++ [{ block with publication := some publication }]).map Block.header =
      overlap.registry.ledger.blocks.map (·.header) := by
    rw [whole, List.map_append, List.map_append]
    rfl
  refine ⟨intact.sound.finalized whole publication, intact.stored, fun stage member => ?_,
    fun distinct => ?_⟩
  · rcases advance.of_mem member with before | rfl
    · refine (intact.listed stage before).mono ?_ (List.Subset.refl _)
      rw [headers]
      exact List.Subset.refl _
    · trivial
  · obtain ⟨listed, handed⟩ := intact.listed _ (List.mem_of_getElem? waits)
    have names : ((earlier ++ [block]).map (·.digest H)).Nodup := by
      rw [List.map_append] at distinct ⊢
      exact distinct
    have orderly := intact.orderly (whole ▸ names)
    obtain ⟨other, member, header⟩ := List.mem_map.mp listed
    rw [whole] at orderly member
    have last : block ∈ earlier ++ [block] := List.mem_append_right _ List.mem_cons_self
    have same : other = block := by
      refine List.inj_on_of_nodup_map names member last ?_
      rw [digest]
      exact congrArg (Header.digest H) header
    rw [← header, same, answer] at handed
    exact orderly.finished names pending handed digest.symm advance

theorem Intact.moves (intact : Intact H overlap) (moves : Moves H overlap move after) :
    Intact H after := by
  cases moves with
  | notOffered absent => exact intact
  | notWaiting absent => exact intact
  | stored cache accepted =>
    obtain ⟨_, fresh, rfl⟩ := IndexedLedger.of_store_eq_ok accepted
    exact ⟨intact.sound.appended fresh, congrArg (· ++ [_]) intact.stored, intact.listed,
      intact.orderly⟩
  | unstored cache refused => exact ⟨intact.sound, intact.stored, intact.listed, intact.orderly⟩
  | timed now => exact ⟨intact.sound, intact.stored, intact.listed, intact.orderly⟩
  | refused refused =>
    obtain ⟨result, answered⟩ := overlap.registry.ledger.exists_propose (H := H)
      overlap.registry.maxExponent (Int64.ofInt overlap.registry.now)
    cases answered.symm.trans refused
  | idle answered =>
    cases IndexedLedger.proposes_of_ok answered with
    | nothing settled idle => exact intact.advanced (.append _ _) trivial nofun nofun
  | offered answered =>
    cases IndexedLedger.proposes_of_ok answered with
    | again last pending =>
      exact intact.advanced (.append _ _)
        (List.mem_map_of_mem (List.mem_of_getLast? last)) nofun nofun
    | next settled waiting made =>
      refine (intact.extended settled waiting).advanced (.append _ _) ?_ nofun nofun
      exact List.mem_map_of_mem (List.mem_append_right _ List.mem_cons_self)
  | handed begun => exact intact.handOver begun
  | finished waits finishes =>
    cases finishes with
    | unpublished answer =>
      refine intact.advanced (.set waits nofun _) trivial nofun fun _ error failure => ?_
      cases failure
      obtain ⟨_, handed⟩ := intact.listed _ (List.mem_of_getElem? waits)
      rw [answer] at handed
      exact Or.inl ⟨_, _, rfl, handed⟩
    | late answer refused =>
      refine intact.advanced (.set waits nofun _) trivial nofun fun distinct error failure => ?_
      cases failure
      exact intact.excused waits refused distinct
    | published cache metrics answer accepted =>
      exact intact.published waits answer accepted cache metrics

/-- A move lets the chain grow. -/
theorem Intact.grows (intact : Intact H overlap) (moves : Moves H overlap move after) :
    Ledger.Grows overlap.registry.ledger.entries after.registry.ledger.entries := by
  cases moves with
  | stored cache accepted =>
    obtain ⟨_, _, rfl⟩ := IndexedLedger.of_store_eq_ok accepted
    dsimp only
    rw [intact.sound.entries_appended]
    exact .refl _
  | idle answered =>
    cases IndexedLedger.proposes_of_ok answered with
    | nothing settled idle => exact .refl _
  | offered answered =>
    cases IndexedLedger.proposes_of_ok answered with
    | again last pending => exact .refl _
    | next settled waiting made =>
      dsimp only
      rw [IndexedLedger.entries_extended]
      exact .append _ _
  | finished waits finishes =>
    cases finishes with
    | unpublished _ | late _ _ => exact .refl _
    | published cache metrics answer accepted =>
      obtain ⟨earlier, block, whole, pending, _, rfl⟩ := intact.sound.of_finalize_eq_ok accepted
      exact IndexedLedger.grows_published whole pending _
  | _ => exact .refl _

theorem Intact.run (intact : Intact H overlap) (moves : List Move) :
    Intact H (overlap.run H moves) := by
  induction moves generalizing overlap with
  | nil => exact intact
  | cons move moves inductionHypothesis =>
    exact inductionHypothesis (intact.moves (overlap.moves H move))

theorem Intact.grows_run (intact : Intact H overlap) (moves : List Move) :
    Ledger.Grows overlap.registry.ledger.entries (overlap.run H moves).registry.ledger.entries := by
  induction moves generalizing overlap with
  | nil => exact .refl _
  | cons move moves inductionHypothesis =>
    have moved := overlap.moves H move
    exact (intact.grows moved).trans (inductionHypothesis (intact.moves moved))

end

/-! ### Ledgers of both kinds -/

/-- What the log has answered to the rounds, and what it will answer, fits into eight bytes. -/
structure Fits {L : Type} (overlap : Overlap L) : Prop where
  log : ∀ answer ∈ overlap.registry.log, AnswerFits answer
  waits : ∀ round, .waits round ∈ overlap.rounds →
    ∀ publication, round.answer = .ok publication → publication.Fits

/-- The same rounds over a ledger and over the ledger in memory that it is seen as. -/
structure Mirrors {L : Type} [Ledger L] {H : DigestFunction} (window : Ledger.Window H L)
    (overlap : Overlap L) (other : Overlap IndexedLedger) : Prop where
  sees : window.Sees overlap.registry.ledger other.registry.ledger
  maxExponent : overlap.registry.maxExponent = other.registry.maxExponent
  now : overlap.registry.now = other.registry.now
  log : overlap.registry.log = other.registry.log
  rounds : overlap.rounds = other.rounds
  handed : overlap.handed = other.handed
  stored : overlap.stored = other.stored

section

variable {L : Type} [Ledger L] {H : DigestFunction} {window : Ledger.Window H L}
  {overlap after : Overlap L} {other otherAfter : Overlap IndexedLedger} {move : Move}

omit [Ledger L] in
theorem fits_start (ledger : L) (cache : Cache.Site) (maxExponent : Nat) {log : List Log.Answer}
    (logFits : ∀ answer ∈ log, AnswerFits answer) (now : Int) :
    Fits (start ledger cache maxExponent log now) where
  log := logFits
  waits round member := by simp [start] at member

theorem Fits.moves (fits : Fits overlap) (moves : Moves H overlap move after) : Fits after := by
  have advanced : ∀ {registry place stage rounds handed stored},
      registry.log = overlap.registry.log → Advance overlap.rounds place stage rounds →
      (∀ round, stage ≠ .waits round) → Fits (L := L) ⟨registry, rounds, handed, stored⟩ := by
    intro registry place stage rounds handed stored same advance idle
    refine ⟨fun answer member => fits.log answer (same ▸ member), fun round member => ?_⟩
    exact fits.waits round ((advance.of_mem member).resolve_right fun same => idle round same.symm)
  cases moves with
  | notOffered _ | notWaiting _ => exact fits
  | stored _ _ | unstored _ _ => exact ⟨fits.log, fits.waits⟩
  | timed now => exact ⟨fits.log, fits.waits⟩
  | refused _ | idle _ | offered _ => exact advanced rfl (.append _ _) nofun
  | handed begun =>
    refine ⟨fun answer member => fits.log answer (List.mem_of_mem_tail member),
      fun round member => ?_⟩
    rcases (Advance.set begun nofun _).of_mem member with before | new
    · exact fits.waits round before
    · cases new
      exact fun publication => Trace.publication_fits fits.log
  | finished waits finishes => exact advanced finishes.log_eq (.set waits nofun _) nofun

theorem mirrors_start (H : DigestFunction) (cache : Cache.Site) (maxExponent : Nat)
    (log : List Log.Answer) (now : Int) :
    Mirrors (KeyedLedger.window H) (start KeyedLedger.empty cache maxExponent log now)
      (start IndexedLedger.empty cache maxExponent log now) :=
  ⟨⟨KeyedLedger.represents_empty, IndexedLedger.sound_empty H, IndexedLedger.fits_empty⟩, rfl, rfl,
    rfl, rfl, rfl, rfl⟩

theorem Mirrors.store (mirrors : Mirrors window overlap other) (intact : Intact H other)
    {transaction : Transaction} (transactionFits : transaction.Fits)
    (small : after.stored.length < 2 ^ 64) (moves : Moves H overlap (.store transaction) after)
    (otherMoves : Moves H other (.store transaction) otherAfter) :
    Mirrors window after otherAfter := by
  have agree : Agree _ _ (Ledger.store other.registry.ledger transaction) :=
    window.store_agrees mirrors.sees transaction
  cases otherMoves with
  | stored otherCache otherAccepted =>
    rw [otherAccepted] at agree
    cases moves with
    | stored cache accepted =>
      rw [accepted] at agree
      cases agree with
      | done sees =>
        obtain ⟨_, _, rfl⟩ := IndexedLedger.of_store_eq_ok otherAccepted
        refine { mirrors with sees := sees transactionFits ?_, stored := ?_ }
        · rw [IndexedLedger.appended, intact.stored, ← mirrors.stored]
          exact small
        · exact congrArg (· ++ [transaction]) mirrors.stored
    | unstored cache refused =>
      rw [refused] at agree
      cases agree
  | unstored otherCache otherRefused =>
    rw [otherRefused] at agree
    cases moves with
    | stored cache accepted => cases agree.of_error.symm.trans accepted
    | unstored cache refused => exact { mirrors with }

theorem Mirrors.offer (mirrors : Mirrors window overlap other) :
    Mirrors window (overlap.move H .offer) (other.move H .offer) := by
  have agree : Agree (fun a b => a.1 = b.1 ∧ window.Sees a.2 b.2)
      (Ledger.propose H overlap.registry.maxExponent (Int64.ofInt overlap.registry.now)
        overlap.registry.ledger)
      (Ledger.propose H other.registry.maxExponent (Int64.ofInt other.registry.now)
        other.registry.ledger) := by
    rw [mirrors.maxExponent, mirrors.now]
    exact window.propose_agrees mirrors.sees _ _
  have rounds : ∀ stage, overlap.rounds ++ [stage] = other.rounds ++ [stage] :=
    fun stage => congrArg (· ++ [stage]) mirrors.rounds
  simp only [move, Registry.offer]
  generalize Ledger.propose H overlap.registry.maxExponent (Int64.ofInt overlap.registry.now)
    overlap.registry.ledger = answer at agree ⊢
  generalize Ledger.propose H other.registry.maxExponent (Int64.ofInt other.registry.now)
    other.registry.ledger = otherAnswer at agree ⊢
  cases agree with
  | refused error => exact { mirrors with rounds := rounds _ }
  | @done answer otherAnswer same =>
    obtain ⟨proposal, ledger⟩ := answer
    obtain ⟨otherProposal, otherLedger⟩ := otherAnswer
    obtain ⟨rfl, sees⟩ := same
    cases proposal with
    | none => exact { mirrors with sees := sees, rounds := rounds _ }
    | some proposal => exact { mirrors with sees := sees, rounds := rounds _ }

theorem Mirrors.hand (mirrors : Mirrors window overlap other) (place : Nat) :
    Mirrors window (overlap.move H (.hand place)) (other.move H (.hand place)) := by
  simp only [move, mirrors.rounds]
  split
  · rename_i proposal begun
    have round : (overlap.registry.handOver H proposal).1 =
        (other.registry.handOver H proposal).1 := by
      simp only [handOver, mirrors.log, mirrors.now]
    exact { mirrors with
      log := congrArg List.tail mirrors.log
      rounds := by rw [round]
      handed := by rw [round, mirrors.handed] }
  all_goals exact mirrors

/-- It does not matter what the caches are told, nor what is counted. -/
theorem Mirrors.told {registry : Registry L} {otherRegistry : Registry IndexedLedger}
    {rounds otherRounds : List Stage}
    {handed otherHanded : List (Header × Except Log.Refusal Publication)}
    {stored otherStored : List Transaction}
    (mirrors : Mirrors window ⟨registry, rounds, handed, stored⟩
      ⟨otherRegistry, otherRounds, otherHanded, otherStored⟩)
    (news : List (Digest × StatusRecord)) (metrics otherMetrics : Metrics) :
    Mirrors window ⟨{ registry.tell news with metrics }, rounds, handed, stored⟩
      ⟨{ otherRegistry.tell news with metrics := otherMetrics }, otherRounds, otherHanded,
        otherStored⟩ := by
  rw [tell_eq registry news, tell_eq otherRegistry news]
  exact { mirrors with }

theorem Mirrors.finish (mirrors : Mirrors window overlap other) (fits : Fits overlap)
    (place : Nat) :
    Mirrors window (overlap.move H (.finish place)) (other.move H (.finish place)) := by
  simp only [move, mirrors.rounds]
  split
  · rename_i round waits
    rw [← mirrors.rounds] at waits
    simp only [finishRound, settle]
    cases answer : round.answer with
    | error refusal => exact { mirrors with rounds := rfl }
    | ok publication =>
      have agree : Agree window.Sees
          (Ledger.finalize overlap.registry.ledger (round.proposal.digest H) publication)
          (Ledger.finalize other.registry.ledger (round.proposal.digest H) publication) :=
        window.finalize_agrees mirrors.sees _ _
          (fits.waits round (List.mem_of_getElem? waits) publication answer)
      dsimp only
      generalize Ledger.finalize overlap.registry.ledger (round.proposal.digest H) publication =
        finalized at agree ⊢
      generalize Ledger.finalize other.registry.ledger (round.proposal.digest H) publication =
        otherFinalized at agree ⊢
      cases agree with
      | refused error => exact { mirrors with rounds := rfl }
      | done sees =>
        simp only [Settled.conclude, count]
        refine Mirrors.told ?_ _ _ _
        exact { mirrors with sees := sees, rounds := rfl }
  all_goals exact mirrors

/-- Both take the same step. -/
theorem Mirrors.moves (mirrors : Mirrors window overlap other) (intact : Intact H other)
    (fits : Fits overlap)
    (transactionFits : ∀ transaction, move = .store transaction → transaction.Fits)
    (small : (overlap.move H move).stored.length < 2 ^ 64) :
    Mirrors window (overlap.move H move) (other.move H move) := by
  cases move with
  | store transaction =>
    exact mirrors.store intact (transactionFits _ rfl) small (overlap.moves H _) (other.moves H _)
  | time now => exact { mirrors with now := rfl }
  | offer => exact mirrors.offer
  | hand place => exact mirrors.hand place
  | finish place => exact mirrors.finish fits place

theorem Mirrors.run (mirrors : Mirrors window overlap other) (intact : Intact H other)
    (fits : Fits overlap) {moves : List Move}
    (transactionsFit : ∀ transaction, .store transaction ∈ moves → transaction.Fits)
    (small : (overlap.run H moves).stored.length < 2 ^ 64) :
    Mirrors window (overlap.run H moves) (other.run H moves) := by
  induction moves generalizing overlap other with
  | nil => exact mirrors
  | cons move moves inductionHypothesis =>
    have smallAfter : (overlap.move H move).stored.length < 2 ^ 64 :=
      Nat.lt_of_le_of_lt (isPrefix_stored_run (overlap.move H move) moves).length_le small
    refine inductionHypothesis (mirrors.moves intact fits ?_ smallAfter)
      (intact.moves (other.moves H move)) (fits.moves (overlap.moves H move)) ?_ small
    · exact fun transaction same => transactionsFit transaction (same ▸ List.mem_cons_self)
    · exact fun transaction member => transactionsFit transaction (List.mem_cons_of_mem _ member)

end

/-! ### One chain -/

section

variable {L : Type} [Ledger L]

/-- The ledger lists a chain that `entries` may grow from, every header that was handed over is in
it, and the rounds go with it. -/
def KeepsTo (H : DigestFunction) (overlap : Overlap L) (entries : List BlockEntry) : Prop :=
  ∃ before, Ledger.Lists overlap.registry.ledger before ∧ Ledger.Grows before entries ∧
    (∀ header answer, (header, answer) ∈ overlap.handed →
      header ∈ before.map (·.block.header)) ∧
    Orderly H overlap.rounds overlap.handed (before.map (·.block))

/-- A step has left nothing behind in the ledger but a block that waits for its publication, and
this only as the first step of its round. -/
def Traceless (overlap : Overlap L) (move : Move) (after : Overlap L) : Prop :=
  (move ≠ .offer → after.registry.ledger = overlap.registry.ledger) ∧
    Ledger.OffersMore overlap.registry.ledger after.registry.ledger

/-- If no two blocks share a name at the end, then the rounds kept to one chain all the time, and
none of the steps of a round that failed has left a trace. -/
def Unforked (H : DigestFunction) (start : Overlap L) (moves : List Move) : Prop :=
  ∃ entries, Ledger.Lists (start.run H moves).registry.ledger entries ∧
    ((entries.map (·.block.digest H)).Nodup →
      (∀ past, past <+: moves → KeepsTo H (start.run H past) entries) ∧
      ∀ past move place error, past ++ [move] <+: moves → (start.run H past).Owns place move →
        (start.run H moves).Ended place (.error error) →
        Traceless (start.run H past) move (start.run H (past ++ [move])))

section

variable {H : DigestFunction} {window : Ledger.Window H L} {overlap after : Overlap L}
  {other otherAfter : Overlap IndexedLedger}

theorem Mirrors.keepsTo (mirrors : Mirrors window overlap other) (intact : Intact H other)
    {entries : List BlockEntry} (grows : Ledger.Grows other.registry.ledger.entries entries)
    (distinct : (entries.map (·.block.digest H)).Nodup) : KeepsTo H overlap entries := by
  have names := grows.distinct distinct
  rw [IndexedLedger.map_entries (Block.digest H)] at names
  have orderly := intact.orderly names
  rw [← mirrors.rounds, ← mirrors.handed] at orderly
  refine ⟨_, window.lists mirrors.sees, grows, fun header answer member => ?_, ?_⟩
  · rw [IndexedLedger.map_entries Block.header]
    exact orderly.listed member
  · rw [IndexedLedger.map_block_entries]
    exact orderly

theorem Mirrors.traceless (mirrors : Mirrors window overlap other)
    (mirrorsAfter : Mirrors window after otherAfter) {move : Move} {place : Nat}
    (moves : Moves H overlap move after) (otherMoves : Moves H other move otherAfter)
    (owns : overlap.Owns place move)
    (fruitless : ∀ finalized, ¬ after.Ended place (.ok (some finalized))) :
    Traceless overlap move after := by
  refine ⟨fun later => moves.ledger_eq owns later fruitless, ?_⟩
  refine window.offersMore mirrors.sees mirrorsAfter.sees ?_
  by_cases offers : move = .offer
  · subst offers
    cases otherMoves with
    | refused _ => exact IndexedLedger.offersMore_refl _
    | idle answered => exact (IndexedLedger.proposes_of_ok answered).offersMore
    | offered answered => exact (IndexedLedger.proposes_of_ok answered).offersMore
  · have otherOwns : other.Owns place move := by
      cases move with
      | offer => exact absurd rfl offers
      | _ => exact owns
    rw [otherMoves.ledger_eq otherOwns offers fun finalized ended => ?_]
    · exact IndexedLedger.offersMore_refl _
    · refine fruitless finalized ?_
      rw [Ended, mirrorsAfter.rounds]
      exact ended

theorem unforked_of_mirrors (window : Ledger.Window H L) {start : Overlap L}
    {other : Overlap IndexedLedger} (intact : Intact H other) {moves : List Move}
    (mirrors : ∀ past, past <+: moves → Mirrors window (start.run H past) (other.run H past)) :
    Unforked H start moves := by
  refine ⟨_, window.lists (mirrors moves (List.prefix_refl _)).sees, fun distinct => ⟨?_, ?_⟩⟩
  · intro past within
    have mirrored := mirrors past within
    obtain ⟨future, rfl⟩ := within
    rw [run_append] at distinct ⊢
    exact mirrored.keepsTo (intact.run past) ((intact.run past).grows_run future) distinct
  · intro past move place error within owns failed
    have before := mirrors past ((List.prefix_append _ _).trans within)
    have mirrored := mirrors (past ++ [move]) within
    obtain ⟨future, rfl⟩ := within
    rw [run_append] at failed
    rw [run_append, run_append] at mirrored
    rw [run_append]
    refine before.traceless mirrored ((start.run H past).moves H move)
      ((other.run H past).moves H move) owns fun finalized success => ?_
    rw [run_append] at failed
    have ended := Ended.run (H := H) success future
    cases ended.symm.trans failed

end

end

/-- Whatever order the rounds over a ledger in memory take their steps in, and whatever the log
answers, they never fork its chain. The same holds of a ledger in a table, as long as positions and
lengths fit into eight bytes. -/
theorem unforked_of_empty (H : DigestFunction) (cache : Cache.Site) (maxExponent : Nat)
    (log : List Log.Answer) (now : Int) (moves : List Move) :
    Unforked H (start IndexedLedger.empty cache maxExponent log now) moves ∧
      ((∀ answer ∈ log, AnswerFits answer) →
        (∀ transaction, .store transaction ∈ moves → transaction.Fits) →
        ((start KeyedLedger.empty cache maxExponent log now).run H moves).stored.length < 2 ^ 64 →
        Unforked H (start KeyedLedger.empty cache maxExponent log now) moves) := by
  have intact := intact_start H cache maxExponent log now
  refine ⟨unforked_of_mirrors (IndexedLedger.window H) intact fun past _ => ?_,
    fun logFits transactionsFit small =>
      unforked_of_mirrors (KeyedLedger.window H) intact fun past within => ?_⟩
  · exact ⟨⟨rfl, (intact.run past).sound⟩, rfl, rfl, rfl, rfl, rfl, rfl⟩
  · obtain ⟨future, rfl⟩ := within
    rw [run_append] at small
    refine (mirrors_start H cache maxExponent log now).run intact (fits_start _ _ _ logFits _)
      (fun transaction member => ?_) ?_
    · exact transactionsFit transaction (List.mem_append_left _ member)
    · exact Nat.lt_of_le_of_lt (isPrefix_stored_run _ future).length_le small

/-- Two rounds hand the same block to the log, and the one that began later ends first. -/
theorem unforked_of_late_round :
    let H : DigestFunction := fun _ => Digest.zero
    let begun := start KeyedLedger.empty (.empty 1 1000) 0 [] 0
    let past : List Move := [.store ⟨Digest.zero, .zero 16, 0, [1]⟩, .offer, .offer, .hand 0,
      .hand 1, .finish 1]
    let final := begun.run H (past ++ [.finish 0])
    final.Ended 1 (.ok (some ⟨Digest.zero, 1⟩)) ∧
      final.Ended 0 (.error (.ledger (.notPending Digest.zero))) ∧
      Traceless (begun.run H past) (.finish 0) final ∧ ∃ entries, KeepsTo H final entries := by
  intro H begun past final
  have transactionsFit : ∀ transaction, .store transaction ∈ past ++ [.finish 0] →
      transaction.Fits := by
    intro transaction member
    have same : transaction = ⟨Digest.zero, .zero 16, 0, [1]⟩ := by simpa [past] using member
    rw [same, Transaction.Fits]
    decide
  have small : final.stored.length < 2 ^ 64 := by decide +kernel
  have logFits : ∀ answer ∈ ([] : List Log.Answer), AnswerFits answer := by simp
  have inTable := (unforked_of_empty H (.empty 1 1000) 0 [] 0 (past ++ [.finish 0])).2 logFits
  obtain ⟨entries, lists, unforked⟩ := inTable transactionsFit small
  have mirrors := (mirrors_start H (.empty 1 1000) 0 [] 0).run
    (intact_start H (.empty 1 1000) 0 [] 0)
    (fits_start KeyedLedger.empty (.empty 1 1000) 0 logFits 0) transactionsFit small
  have listed := lists.unique ((KeyedLedger.window H).lists mirrors.sees)
  have distinct : (entries.map (·.block.digest H)).Nodup := by
    rw [listed]
    decide +kernel
  obtain ⟨keeps, traceless⟩ := unforked distinct
  have failed : final.Ended 0 (.error (.ledger (.notPending Digest.zero))) := by decide +kernel
  exact ⟨by decide +kernel, failed, traceless past _ 0 _ (List.prefix_refl _) rfl failed, entries,
    keeps _ (List.prefix_refl _)⟩

end Overlap

end Registry

end StreamLedger
