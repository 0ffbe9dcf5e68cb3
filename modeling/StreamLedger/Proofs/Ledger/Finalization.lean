/-
This file says what the publication of a block does. A ledger takes it for the last block of its
chain, under that block's name and while it waits, and for no other block: a name leads to the last
block that has it, and all blocks before the last are published. Then this one block carries the
publication wherever the ledger shows it, its transactions are finalized, and the next block can
come. A publication that the ledger refuses changes nothing.
-/
import StreamLedger.Proofs.Ledger.Admission
import StreamLedger.Proofs.Ledger.Offer

namespace StreamLedger

/-- A block as it is after `pending` was published: the same, unless it is this one. -/
def Block.published (pending : Block) (publication : Publication) (block : Block) : Block :=
  if block = pending then { pending with publication := some publication } else block

namespace Block

variable (pending : Block) (publication : Publication)

theorem published_self : pending.published publication pending =
    { pending with publication := some publication } := if_pos rfl

theorem published_of_ne {block : Block} (other : block ≠ pending) :
    pending.published publication block = block := if_neg other

variable (block : Block)

theorem isFinalized_of_waits (waits : block.publication = none) : block.isFinalized = false := by
  rw [isFinalized, waits]
  rfl

theorem first_published : (pending.published publication block).first = block.first := by
  unfold published
  split
  · rename_i same
    rw [same]
  · rfl

theorem last_published : (pending.published publication block).last = block.last := by
  unfold published
  split
  · rename_i same
    rw [same]
  · rfl

theorem contains_published (position : UInt64) :
    (pending.published publication block).contains position = block.contains position := by
  rw [contains, first_published, last_published, contains]

end Block

/-- The entry of a block as it is after `pending` was published. -/
def BlockEntry.published (pending : Block) (publication : Publication) (entry : BlockEntry) :
    BlockEntry :=
  { entry with block := pending.published publication entry.block }

/-- The last block of a chain waits for its publication under a name. -/
structure Ledger.Awaits (H : DigestFunction) (entries : List BlockEntry) (name : Digest)
    (pending : Block) : Prop where
  last : entries.getLast?.map (·.block) = some pending
  waits : pending.publication = none
  named : pending.digest H = name

/-! ### The ledger in memory -/

namespace IndexedLedger

variable {H : DigestFunction} {ledger changed : IndexedLedger} {pending : Block}
  {publication : Publication}

theorem getLast?_map_block :
    ledger.entries.getLast?.map (·.block) = ledger.blocks.getLast? := by
  rw [← List.getLast?_map, map_block_entries]

theorem last_of_awaits {name : Digest} (awaits : Ledger.Awaits H ledger.entries name pending) :
    ledger.blocks.getLast? = some pending := getLast?_map_block.symm.trans awaits.last

/-- The ledger after one of its blocks was published. -/
def published (ledger : IndexedLedger) (pending : Block) (publication : Publication) :
    IndexedLedger :=
  { ledger with blocks := ledger.blocks.map (pending.published publication) }

/-- The last block stands at no other place of the chain. -/
theorem Sound.published_eq (sound : ledger.Sound H) {earlier : List Block}
    (whole : ledger.blocks = earlier ++ [pending]) (publication : Publication) :
    ledger.published pending publication =
      { ledger with
        blocks := earlier ++ [{ pending with publication := some publication }] } := by
  have apart := sound.tiles.pairwise_last
  rw [whole, List.pairwise_append] at apart
  have others : earlier.map (pending.published publication) = earlier := by
    refine (List.map_congr_left fun block member => ?_).trans (List.map_id' earlier)
    refine Block.published_of_ne pending publication fun same => ?_
    have before := apart.2.2 block member pending (List.mem_singleton_self _)
    rw [same] at before
    exact UInt64.lt_irrefl _ before
  rw [published, whole, List.map_append, others, List.map_singleton, Block.published_self]

theorem Sound.published (sound : ledger.Sound H) (last : ledger.blocks.getLast? = some pending)
    (publication : Publication) : (ledger.published pending publication).Sound H := by
  obtain ⟨earlier, whole⟩ := List.getLast?_eq_some_iff.mp last
  rw [sound.published_eq whole]
  exact sound.finalized whole publication

/-- A publication changes the last block, which has waited for it under its name. -/
theorem Sound.published_of_finalize (sound : ledger.Sound H) {name : Digest}
    (accepted : ledger.finalize name publication = .ok changed) :
    ∃ block, Ledger.Awaits H ledger.entries name block ∧
      changed = ledger.published block publication := by
  obtain ⟨earlier, block, whole, waits, named, rfl⟩ := sound.of_finalize_eq_ok accepted
  refine ⟨block, ⟨?_, waits, named⟩, (sound.published_eq whole publication).symm⟩
  rw [getLast?_map_block, whole, List.getLast?_concat]

/-- The name of the last block leads to it, even if an earlier block has the same name. -/
theorem Sound.finalize_last (sound : ledger.Sound H) (last : ledger.blocks.getLast? = some pending)
    (waits : pending.publication = none) (publication : Publication) :
    ∃ changed, ledger.finalize (pending.digest H) publication = .ok changed := by
  have final : ledger.blocks[ledger.blocks.length - 1]? = some pending := by
    rw [← List.getLast?_eq_getElem?, last]
  obtain ⟨place, after, found⟩ := sound.latest _ pending final
  obtain ⟨block, standing, _⟩ := sound.named _ _ found
  have bound := (List.getElem?_eq_some_iff.mp standing).1
  obtain rfl : place = ledger.blocks.length - 1 := by omega
  obtain rfl : pending = block := Option.some.inj (final.symm.trans standing)
  have unpublished := pending.isFinalized_of_waits waits
  simp only [finalize, found, final, unpublished]
  exact ⟨_, rfl⟩

theorem Sound.exists_finalize_eq_ok_iff (sound : ledger.Sound H) (name : Digest)
    (publication : Publication) :
    (∃ changed, ledger.finalize name publication = .ok changed) ↔
      ∃ block, Ledger.Awaits H ledger.entries name block := by
  constructor
  · rintro ⟨changed, accepted⟩
    obtain ⟨block, awaits, _⟩ := sound.published_of_finalize accepted
    exact ⟨block, awaits⟩
  · rintro ⟨block, last, waits, rfl⟩
    exact sound.finalize_last (getLast?_map_block.symm.trans last) waits publication

theorem eq_notPending_of_finalize {name : Digest} {error : LedgerError}
    (refused : ledger.finalize name publication = .error error) : error = .notPending name := by
  simp only [finalize] at refused
  split at refused
  · cases refused
    rfl
  · split at refused
    · cases refused
      rfl
    · split at refused
      · cases refused
        rfl
      · cases refused

/-- A publication of anything else is refused. -/
theorem Sound.finalize_eq_notPending (sound : ledger.Sound H) {name : Digest}
    (none : ∀ block, ¬ Ledger.Awaits H ledger.entries name block) (publication : Publication) :
    ledger.finalize name publication = .error (.notPending name) := by
  cases answered : ledger.finalize name publication with
  | error error => rw [eq_notPending_of_finalize answered]
  | ok changed =>
    obtain ⟨block, awaits⟩ :=
      (sound.exists_finalize_eq_ok_iff name publication).mp ⟨changed, answered⟩
    exact absurd awaits (none block)

/-! ### What is shown of a block that was published -/

theorem inBlock_published (block : Block) :
    (ledger.published pending publication).inBlock (pending.published publication block) =
      ledger.inBlock block := by
  rw [inBlock, Block.first_published, Block.last_published]
  rfl

theorem page_published (skip take : Nat) (withTransactions : Bool) :
    (ledger.published pending publication).page skip take withTransactions =
      (ledger.page skip take withTransactions).map (BlockEntry.published pending publication) := by
  have blocks : (ledger.published pending publication).blocks =
      ledger.blocks.map (pending.published publication) := rfl
  simp only [page, blocks, List.zipIdx_map, ← List.map_drop, ← List.map_take, List.map_map]
  refine List.map_congr_left fun entry _ => ?_
  obtain ⟨block, place⟩ := entry
  simp [BlockEntry.published, inBlock_published]

theorem Sound.covering_published (sound : ledger.Sound H)
    (last : ledger.blocks.getLast? = some pending) (publication : Publication) (position : Nat) :
    (ledger.published pending publication).covering position =
      (ledger.covering position).map (pending.published publication) := by
  ext after
  rw [(sound.published last publication).covering_eq_some_iff_contains, Option.map_eq_some_iff]
  constructor
  · rintro ⟨member, within⟩
    obtain ⟨block, standing, rfl⟩ := List.mem_map.mp member
    rw [Block.contains_published] at within
    exact ⟨block, sound.covering_eq_some_iff_contains.mpr ⟨standing, within⟩, rfl⟩
  · rintro ⟨block, covers, rfl⟩
    obtain ⟨standing, within⟩ := sound.covering_eq_some_iff_contains.mp covers
    rw [Block.contains_published]
    exact ⟨List.mem_map_of_mem standing, within⟩

theorem Sound.blockOf_published (sound : ledger.Sound H)
    (last : ledger.blocks.getLast? = some pending) (publication : Publication) (name : Digest) :
    (ledger.published pending publication).blockOf name =
      (ledger.blockOf name).map (pending.published publication) := by
  rw [blockOf, blockOf, Option.map_bind]
  exact Option.bind_congr fun position _ => sound.covering_published last publication position

/-- The transactions of the block are finalized, and no others change. -/
theorem Sound.status_of_published (sound : ledger.Sound H)
    (last : ledger.blocks.getLast? = some pending) (publication : Publication) (name : Digest) :
    (ledger.published pending publication).status name =
      if ledger.blockOf name = some pending then .finalized else ledger.status name := by
  have positions : (ledger.published pending publication).positions = ledger.positions := rfl
  cases found : ledger.positions.lookup name with
  | none =>
    simp only [status, blockOf, positions, found]
    rfl
  | some position =>
    simp only [status, blockOf, positions, found, sound.covering_published last, Option.bind_some]
    cases covers : ledger.covering position with
    | none => rfl
    | some block =>
      simp only [Option.map_some]
      by_cases same : block = pending
      · rw [same, if_pos rfl, Block.published_self]
        rfl
      · rw [if_neg fun equal => same (Option.some.inj equal), Block.published_of_ne _ _ same]

theorem transactionsOf_published (name : Digest) :
    (ledger.published pending publication).transactionsOf name = ledger.transactionsOf name := by
  have found : ((ledger.published pending publication).places.lookup name).bind
      ((ledger.published pending publication).blocks[·]?) =
        ((ledger.places.lookup name).bind (ledger.blocks[·]?)).map
          (pending.published publication) := by
    rw [Option.map_bind]
    exact Option.bind_congr fun place _ => List.getElem?_map
  simp only [transactionsOf, found]
  cases (ledger.places.lookup name).bind (ledger.blocks[·]?) with
  | none => rfl
  | some block => simp only [Option.map_some, inBlock_published]

theorem answerOf_store_published (transaction : Transaction) :
    (Ledger.answerOf (ledger.published pending publication)
        ((ledger.published pending publication).store transaction)).1 =
      (Ledger.answerOf ledger (ledger.store transaction)).1 := by
  have positions : (ledger.published pending publication).positions = ledger.positions := rfl
  have positionsOf : (ledger.published pending publication).positionsOf transaction.stream =
      ledger.positionsOf transaction.stream := rfl
  simp only [store, positions, positionsOf]
  split
  · rfl
  · split <;> rfl

theorem getLast?_published (last : ledger.blocks.getLast? = some pending)
    (publication : Publication) :
    (ledger.published pending publication).blocks.getLast? =
      some { pending with publication := some publication } := by
  rw [published, List.getLast?_map, last, Option.map_some, Block.published_self]

/-! ### What comes next -/

/-- A block that is published is not published again. -/
theorem Sound.finalize_published (sound : ledger.Sound H)
    (last : ledger.blocks.getLast? = some pending) (publication again : Publication)
    (name : Digest) :
    (ledger.published pending publication).finalize name again = .error (.notPending name) := by
  refine (sound.published last publication).finalize_eq_notPending ?_ again
  rintro block ⟨standing, waits, _⟩
  rw [getLast?_map_block, getLast?_published last, Option.some.injEq] at standing
  rw [← standing] at waits
  cases waits

/-- While no block waits, the next one comes if transactions wait. -/
theorem propose_of_settled (settled : ∀ block ∈ ledger.blocks.getLast?, block.isFinalized = true)
    (maxExponent : Nat) (now : Int64) :
    (UInt64.ofNat ledger.transactions.length ≤ Block.nextPosition ledger.blocks.getLast? ∧
      ledger.propose H maxExponent now = .ok (none, ledger)) ∨
    ∃ header, Block.nextPosition ledger.blocks.getLast? < UInt64.ofNat ledger.transactions.length ∧
      Header.next H ledger.blocks.getLast?
        ((ledger.inBlock (ledger.nextBlock maxExponent header)).map (·.payload)) now = .ok header ∧
      ledger.propose H maxExponent now =
        .ok (some ((ledger.nextBlock maxExponent header).proposal
          (ledger.inBlock (ledger.nextBlock maxExponent header))),
          ledger.extended H (ledger.nextBlock maxExponent header)) := by
  obtain ⟨⟨proposal, later⟩, answered⟩ := exists_propose (H := H) ledger maxExponent now
  cases proposes_of_ok answered with
  | again last pending =>
    rw [settled _ last] at pending
    cases pending
  | nothing _ idle => exact Or.inl ⟨idle, answered⟩
  | next _ waiting made => exact Or.inr ⟨_, waiting, made, answered⟩

/-- The next block follows the one that was published, if transactions wait. -/
theorem propose_published (last : ledger.blocks.getLast? = some pending)
    (publication : Publication) (maxExponent : Nat) (now : Int64) :
    ∃ proposal later,
      (ledger.published pending publication).propose H maxExponent now = .ok (proposal, later) ∧
        (proposal = none ↔ UInt64.ofNat ledger.transactions.length ≤ pending.last + 1) ∧
        ∀ next ∈ proposal, next.header.previousHeader = pending.digest H ∧
          next.header.previousPublication = publication.digest H := by
  have final := getLast?_published last publication
  have settled : ∀ block ∈ (ledger.published pending publication).blocks.getLast?,
      block.isFinalized = true := by
    rw [final]
    rintro block ⟨⟩
    rfl
  rcases propose_of_settled (H := H) settled maxExponent now with
    ⟨idle, answered⟩ | ⟨header, waiting, made, answered⟩
  · rw [final] at idle
    exact ⟨_, _, answered, iff_of_true rfl idle, nofun⟩
  · rw [final] at waiting made
    refine ⟨_, _, answered, iff_of_false nofun (UInt64.not_le.mpr waiting), ?_⟩
    rintro next ⟨⟩
    obtain ⟨named, other, carried, receipt⟩ := (Header.of_next_eq_ok made).2.2.2 _ rfl
    cases carried
    exact ⟨named, receipt⟩

end IndexedLedger

/-! ### Both kinds of ledgers -/

namespace Ledger

section

variable {L : Type} [Ledger L]

/-- What each operation answers after the publication of the last block, next to what it answered
before. The block carries the publication wherever it is shown, and its transactions are finalized.
It was offered before; now the next block follows it, and no other publication is taken. -/
structure Publishes (H : DigestFunction) (ledger changed : L) (pending : Block)
    (publication : Publication) : Prop where
  page : ∀ skip take withTransactions, Ledger.page changed skip take withTransactions =
    (Ledger.page ledger skip take withTransactions).map
      (List.map (BlockEntry.published pending publication))
  blockOf : ∀ name, Ledger.blockOf changed name =
    (Ledger.blockOf ledger name).map (Option.map (pending.published publication))
  status : ∀ name, Ledger.status changed name =
    if Ledger.blockOf ledger name = .ok (some pending) then .ok .finalized
    else Ledger.status ledger name
  stream : ∀ id, Ledger.stream changed id = Ledger.stream ledger id
  transactionsOf : ∀ name, Ledger.transactionsOf changed name = Ledger.transactionsOf ledger name
  size : Ledger.size changed = Ledger.size ledger
  store : ∀ transaction, ((Operation.store transaction).run H changed).1 =
    ((Operation.store transaction).run H ledger).1
  offered : ∀ maxExponent now, ∃ transactions later, Ledger.propose H maxExponent now ledger =
    .ok (some (pending.proposal transactions), later)
  next : ∀ maxExponent now, ∃ proposal later,
    Ledger.propose H maxExponent now changed = .ok (proposal, later) ∧
      (∀ count, Ledger.size changed = .ok count → (proposal = none ↔ count ≤ pending.last + 1)) ∧
      ∀ next ∈ proposal, next.header.previousHeader = pending.digest H ∧
        next.header.previousPublication = publication.digest H
  finalize : ∀ name again, Ledger.finalize changed name again = .error (.notPending name)

/-- What a ledger with the chain `entries` does with a publication. -/
structure FinalizesPending (H : DigestFunction) (ledger : L) (entries : List BlockEntry)
    (name : Digest) (publication : Publication) : Prop where
  lists : Lists ledger entries
  accepted_iff : (∃ changed, Ledger.finalize ledger name publication = .ok changed) ↔
    ∃ pending, Awaits H entries name pending
  publishes : ∀ changed pending, Ledger.finalize ledger name publication = .ok changed →
    Awaits H entries name pending → Publishes H ledger changed pending publication
  /-- A refusal leaves the ledger as it was. -/
  refused : (∀ pending, ¬ Awaits H entries name pending) →
    (Operation.finalize name publication).run H ledger = (.refused (.notPending name), ledger)

/-- What becomes of a ledger with a publication is seen through the window. -/
def Window.Records {H : DigestFunction} (window : Window H L) (publication : Publication) : Prop :=
  ∀ {ledger indexed}, window.Sees ledger indexed → ∀ name,
    Agree window.Sees (Ledger.finalize ledger name publication) (indexed.finalize name publication)

/-- A window through which each decision about a publication is seen, also about one that is too
long to be written down. -/
structure Outlook (H : DigestFunction) (L : Type) [Ledger L] extends Window H L where
  finalize_decides : ∀ {ledger indexed}, Sees ledger indexed → ∀ name publication,
    Agree (fun _ _ => True) (Ledger.finalize ledger name publication)
      (indexed.finalize name publication)

namespace Outlook

variable {H : DigestFunction} {ledger changed : L} {indexed : IndexedLedger} {pending : Block}
  {name : Digest} {publication : Publication}

theorem answerOf_store (outlook : Outlook H L) (seen : outlook.Sees ledger indexed)
    (transaction : Transaction) :
    ((Operation.store transaction).run H ledger).1 =
      (answerOf indexed (indexed.store transaction)).1 := by
  have agree := outlook.store_agrees seen transaction
  rw [Operation.run]
  generalize Ledger.store ledger transaction = table, indexed.store transaction = memory at agree
  cases agree <;> rfl

theorem publishes (outlook : Outlook H L) (seen : outlook.Sees ledger indexed)
    (awaits : Awaits H indexed.entries name pending)
    (seenChanged : outlook.Sees changed (indexed.published pending publication)) :
    Publishes H ledger changed pending publication where
  page skip take withTransactions := by
    rw [outlook.page_eq seenChanged, outlook.page_eq seen, IndexedLedger.page_published]
    rfl
  blockOf name := by
    rw [outlook.blockOf_eq seenChanged, outlook.blockOf_eq seen,
      (outlook.sound seen).blockOf_published (IndexedLedger.last_of_awaits awaits)]
    rfl
  status name := by
    rw [outlook.status_eq seenChanged, outlook.status_eq seen, outlook.blockOf_eq seen,
      (outlook.sound seen).status_of_published (IndexedLedger.last_of_awaits awaits)]
    simp only [Except.ok.injEq]
    split <;> rfl
  stream id := by
    rw [outlook.stream_eq seenChanged, outlook.stream_eq seen]
    rfl
  transactionsOf name := by
    rw [outlook.transactionsOf_eq seenChanged, outlook.transactionsOf_eq seen,
      IndexedLedger.transactionsOf_published]
  size := by
    rw [outlook.size_eq seenChanged, outlook.size_eq seen]
    rfl
  store transaction := by
    rw [outlook.answerOf_store seenChanged, outlook.answerOf_store seen,
      IndexedLedger.answerOf_store_published]
  offered maxExponent now := by
    have offers : indexed.Offers (pending.proposal (indexed.inBlock pending)) :=
      ⟨pending, IndexedLedger.last_of_awaits awaits, pending.isFinalized_of_waits awaits.waits, rfl⟩
    have agree := outlook.propose_agrees seen maxExponent now
    rw [offers.propose_eq] at agree
    obtain ⟨⟨_, later⟩, answered, rfl, _⟩ := agree.of_ok
    exact ⟨_, later, answered⟩
  next maxExponent now := by
    obtain ⟨proposal, _, answered, idle, follows⟩ :=
      IndexedLedger.propose_published (H := H) (IndexedLedger.last_of_awaits awaits) publication
        maxExponent now
    have agree := outlook.propose_agrees seenChanged maxExponent now
    rw [answered] at agree
    obtain ⟨⟨_, later⟩, made, rfl, _⟩ := agree.of_ok
    refine ⟨_, later, made, fun count counted => ?_, follows⟩
    rw [outlook.size_eq seenChanged] at counted
    cases counted
    exact idle
  finalize name again := by
    have agree := outlook.finalize_decides seenChanged name again
    rw [(outlook.sound seen).finalize_published (IndexedLedger.last_of_awaits awaits)] at agree
    exact agree.of_error

/-- What the ledger in memory does with a publication is done by the ledger that is seen as it. -/
theorem finalizesPending (outlook : Outlook H L) (seen : outlook.Sees ledger indexed)
    (records : outlook.Records publication) (name : Digest) :
    FinalizesPending H ledger indexed.entries name publication where
  lists := outlook.lists seen
  accepted_iff := by
    rw [(records seen name).exists_eq_ok_iff, (outlook.sound seen).exists_finalize_eq_ok_iff]
  publishes changed pending accepted awaits := by
    have agree := records seen name
    rw [accepted] at agree
    generalize decided : indexed.finalize name publication = memory at agree
    cases agree with
    | done seenChanged =>
      obtain ⟨block, same, rfl⟩ := (outlook.sound seen).published_of_finalize decided
      obtain rfl : block = pending := Option.some.inj (same.last.symm.trans awaits.last)
      exact outlook.publishes seen awaits seenChanged
  refused none := by
    have agree := records seen name
    rw [(outlook.sound seen).finalize_eq_notPending none] at agree
    rw [Operation.run, agree.of_error]
    rfl

end Outlook

end

end Ledger

section

variable (H : DigestFunction)

def IndexedLedger.outlook : Ledger.Outlook H IndexedLedger where
  toWindow := IndexedLedger.window H
  finalize_decides seen name publication := by
    rw [seen.1]
    exact Agree.of_eq _ fun _ _ => trivial

theorem IndexedLedger.records (publication : Publication) :
    (IndexedLedger.window H).Records publication := by
  rintro ledger _ ⟨rfl, sound⟩ name
  exact Agree.of_eq _ fun changed accepted => ⟨rfl, sound.of_finalize accepted⟩

def KeyedLedger.outlook : Ledger.Outlook H KeyedLedger where
  toWindow := KeyedLedger.window H
  finalize_decides seen name publication :=
    (seen.1.finalize_agrees seen.2.1 seen.2.2 name publication).imp fun _ _ _ _ => trivial

theorem KeyedLedger.records {publication : Publication} (fits : publication.Fits) :
    (KeyedLedger.window H).Records publication := fun seen name =>
  (KeyedLedger.window H).finalize_agrees seen name publication fits

namespace Ledger

/-- After any history that started empty, a ledger in memory takes a publication of the last block
while it waits, and of nothing else, and so does a ledger in a table, as long as positions and
lengths fit into eight bytes. -/
theorem finalizesPending_of_empty (history : List Operation) (name : Digest)
    (publication : Publication) :
    (∃ entries, FinalizesPending H (runAll H IndexedLedger.empty history).2 entries name
        publication) ∧
      ((∀ operation ∈ .finalize name publication :: history, operation.Fits) →
        (accepted H IndexedLedger.empty history).length < 2 ^ 64 →
        ∃ entries, FinalizesPending H (runAll H KeyedLedger.empty history).2 entries name
          publication) := by
  constructor
  · exact ⟨_, (IndexedLedger.outlook H).finalizesPending (sees_indexed_runAll history)
      (IndexedLedger.records H publication) name⟩
  · intro operationsFit small
    obtain ⟨publicationFits, historyFits⟩ := List.forall_mem_cons.mp operationsFit
    exact ⟨_, (KeyedLedger.outlook H).finalizesPending (sees_keyed_of_accepted historyFits small)
      (KeyedLedger.records H publicationFits) name⟩

/-- A second block with the name of the first, which is published already. -/
theorem finalizesPending_of_empty_twins :
    let H : DigestFunction := fun bytes => ⟨UInt8.ofNat bytes.length :: List.replicate 31 0, rfl⟩
    let name := Header.digest H ⟨Digest.zero, Digest.zero, H [1], 0⟩
    let history : List Operation := [
      .store ⟨H [1], .zero 16, 0, [1]⟩, .propose 0 0, .finalize name (.logEntry name),
      .store ⟨H [2, 2], .zero 16, 1, [2, 2]⟩, .propose 0 5]
    let ledger := (runAll H KeyedLedger.empty history).2
    ((Operation.finalize name (.external [7] [])).run H ledger).1 = .done ∧
      ∃ entries, FinalizesPending H ledger entries name (.external [7] []) := by
  intro H name history ledger
  refine ⟨by decide +kernel, (finalizesPending_of_empty H history name _).2 ?_ (by decide +kernel)⟩
  simp [history, Operation.Fits, Transaction.Fits, Publication.Fits]

end Ledger

end

end StreamLedger
