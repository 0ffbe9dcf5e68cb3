/-
This file finds the invariant of a ledger held in memory: what its lists and indexes say agrees,
the blocks lie end to end from the first position on, and only the last of them may lack its
publication. What an operation can do is said once, by a lemma that undoes it; the invariant
then holds of every ledger that a history of operations leads to.
-/
import StreamLedger.Ledger.Indexed
import StreamLedger.Ledger.Operation
import StreamLedger.Proofs.Ledger.Range
import StreamLedger.Proofs.Table

namespace StreamLedger

/-! ### The invariant -/

namespace IndexedLedger

/-- The number of transactions in blocks, which is the position after the last block. -/
def covered (ledger : IndexedLedger) : Nat := (Block.nextPosition ledger.blocks.getLast?).toNat

/-- The positions at which a stream's transactions stand. -/
def positionsIn (ledger : IndexedLedger) (id : StreamId) : List Nat :=
  (List.range ledger.transactions.length).filter fun position =>
    ledger.transactions[position]?.map (·.stream) == some id

/-- What every operation keeps: the indexes say what the lists say, the blocks lie end to end,
and all of them but the last are finalized. -/
structure Sound (H : DigestFunction) (ledger : IndexedLedger) : Prop where
  positions : ∀ digest position, ledger.positions.lookup digest = some position ↔
    ledger.transactions[position]?.map (·.digest) = some digest
  streams : ∀ id, ledger.positionsOf id = ledger.positionsIn id
  tiles : Tiles 0 ledger.blocks ledger.covered
  covered_le : ledger.covered ≤ ledger.transactions.length
  settled : ∀ block ∈ ledger.blocks.dropLast, block.isFinalized = true
  /-- A name leads to a block with this name. -/
  named : ∀ name place, ledger.places.lookup name = some place →
    ∃ block, ledger.blocks[place]? = some block ∧ block.digest H = name
  /-- Of the blocks with one name, the name leads to the last. -/
  latest : ∀ place block, ledger.blocks[place]? = some block →
    ∃ later, place ≤ later ∧ ledger.places.lookup (block.digest H) = some later

theorem sound_empty (H : DigestFunction) : Sound H empty where
  positions digest position := by simp [empty]
  streams id := rfl
  tiles := rfl
  covered_le := Nat.le_refl _
  settled block member := by cases member
  named name place found := by cases found
  latest place block found := by cases found

theorem Sound.lt_of_mem_positionsOf {H : DigestFunction} {ledger : IndexedLedger}
    (sound : Sound H ledger) {id : StreamId} {position : Nat}
    (member : position ∈ ledger.positionsOf id) : position < ledger.transactions.length := by
  rw [sound.streams] at member
  exact List.mem_range.mp (List.mem_of_mem_filter member)

/-! ### What an operation can do -/

section

variable {H : DigestFunction} {ledger changed : IndexedLedger}

/-- The ledger with one more transaction. -/
def appended (ledger : IndexedLedger) (transaction : Transaction) : IndexedLedger :=
  { ledger with
    transactions := ledger.transactions ++ [transaction]
    positions := (transaction.digest, ledger.transactions.length) :: ledger.positions
    streams := (transaction.stream,
      ledger.positionsOf transaction.stream ++ [ledger.transactions.length]) :: ledger.streams }

theorem of_store_eq_ok {transaction : Transaction}
    (accepted : ledger.store transaction = .ok changed) :
    transaction.index = UInt64.ofNat (ledger.positionsOf transaction.stream).length ∧
      ledger.positions.lookup transaction.digest = none ∧ changed = ledger.appended transaction := by
  simp only [store] at accepted
  split at accepted
  · cases accepted
  · rename_i inOrder
    split at accepted
    · cases accepted
    · rename_i fresh
      cases accepted
      exact ⟨Classical.not_not.mp inOrder, Option.not_isSome_iff_eq_none.mp fresh, rfl⟩

/-- The ledger with one more block. -/
def extended (H : DigestFunction) (ledger : IndexedLedger) (block : Block) : IndexedLedger :=
  { ledger with
    blocks := ledger.blocks ++ [block]
    places := (block.digest H, ledger.blocks.length) :: ledger.places }

/-- The block that comes next, under a given header. -/
def nextBlock (ledger : IndexedLedger) (maxExponent : Nat) (header : Header) : Block :=
  let first := Block.nextPosition ledger.blocks.getLast?
  .pending header first (nextLast first (UInt64.ofNat ledger.transactions.length) maxExponent)

/-- The ways in which the next block comes about. -/
inductive Proposes (H : DigestFunction) (maxExponent : Nat) (now : Int64) (ledger : IndexedLedger) :
    Option Proposal → IndexedLedger → Prop
  /-- The last block is offered again. -/
  | again {block : Block} (last : ledger.blocks.getLast? = some block)
      (pending : block.isFinalized = false) :
      Proposes H maxExponent now ledger (some (block.proposal (ledger.inBlock block))) ledger
  /-- No transaction waits. -/
  | nothing (settled : ∀ block ∈ ledger.blocks.getLast?, block.isFinalized = true)
      (idle : UInt64.ofNat ledger.transactions.length ≤ Block.nextPosition ledger.blocks.getLast?) :
      Proposes H maxExponent now ledger none ledger
  /-- A block is made over waiting transactions. -/
  | next {header : Header} (settled : ∀ block ∈ ledger.blocks.getLast?, block.isFinalized = true)
      (waiting : Block.nextPosition ledger.blocks.getLast? < UInt64.ofNat ledger.transactions.length)
      (made : Header.next H ledger.blocks.getLast?
        ((ledger.inBlock (ledger.nextBlock maxExponent header)).map (·.payload)) now = .ok header) :
      Proposes H maxExponent now ledger
        (some ((ledger.nextBlock maxExponent header).proposal
          (ledger.inBlock (ledger.nextBlock maxExponent header))))
        (ledger.extended H (ledger.nextBlock maxExponent header))

theorem proposes_of_extend {maxExponent : Nat} {now : Int64} {proposal : Option Proposal}
    (settled : ∀ block ∈ ledger.blocks.getLast?, block.isFinalized = true)
    (answered : ledger.extend H maxExponent now ledger.blocks.getLast? = .ok (proposal, changed)) :
    Proposes H maxExponent now ledger proposal changed := by
  simp only [extend] at answered
  split at answered
  · rename_i idle
    cases answered
    exact .nothing settled idle
  · rename_i waiting
    split at answered
    · cases answered
    · rename_i header made
      cases answered
      exact .next settled (UInt64.not_le.mp waiting) made

theorem proposes_of_ok {maxExponent : Nat} {now : Int64} {proposal : Option Proposal}
    (answered : ledger.propose H maxExponent now = .ok (proposal, changed)) :
    Proposes H maxExponent now ledger proposal changed := by
  simp only [propose] at answered
  split at answered
  · rename_i block last
    split at answered
    · rename_i finalized
      rw [← last] at answered
      refine proposes_of_extend (fun other member => ?_) answered
      rw [last] at member
      cases member
      exact finalized
    · rename_i pending
      cases answered
      exact .again last (by simpa using pending)
  · rename_i none
    rw [← none] at answered
    refine proposes_of_extend (fun other member => ?_) answered
    rw [none] at member
    cases member

/-- What stands in a list, but not before its end, is its last element. -/
theorem eq_append_of_not_mem_dropLast {α : Type} {list : List α} {place : Nat} {element : α}
    (standing : list[place]? = some element) (absent : element ∉ list.dropLast) :
    ∃ earlier, list = earlier ++ [element] ∧ place = earlier.length := by
  obtain ⟨bound, rfl⟩ := List.getElem?_eq_some_iff.mp standing
  have final : place = list.length - 1 := by
    refine Nat.le_antisymm (by omega) (Nat.not_lt.mp fun before => absent ?_)
    exact List.mem_iff_getElem.mpr ⟨place, by simpa using before, List.getElem_dropLast _⟩
  subst final
  have nonempty : list ≠ [] := List.ne_nil_of_length_pos (by omega)
  refine ⟨list.dropLast, ?_, by simp⟩
  rw [← List.getLast_eq_getElem nonempty, List.dropLast_append_getLast nonempty]

/-- Only the last block can be finalized, and nothing else changes. -/
theorem Sound.of_finalize_eq_ok (sound : Sound H ledger) {name : Digest} {publication : Publication}
    (accepted : ledger.finalize name publication = .ok changed) :
    ∃ earlier block, ledger.blocks = earlier ++ [block] ∧ block.publication = none ∧
      block.digest H = name ∧
      changed = { ledger with blocks := earlier ++ [{ block with publication := some publication }] } := by
  simp only [finalize] at accepted
  split at accepted
  · cases accepted
  · rename_i place found
    split at accepted
    · cases accepted
    · rename_i block standing
      split at accepted
      · cases accepted
      · rename_i pending
        cases accepted
        obtain ⟨other, otherStanding, digest⟩ := sound.named name place found
        obtain rfl : block = other := Option.some.inj (standing.symm.trans otherStanding)
        obtain ⟨earlier, whole, rfl⟩ := eq_append_of_not_mem_dropLast standing fun member =>
          pending (sound.settled block member)
        refine ⟨earlier, block, whole, by simpa [Block.isFinalized] using pending, digest, ?_⟩
        rw [whole, List.set_append_right _ _ (Nat.le_refl _), Nat.sub_self]
        rfl

/-- The ways in which an operation may change the ledger. -/
inductive Advances (H : DigestFunction) (ledger : IndexedLedger) :
    Ledger.Operation → IndexedLedger → Prop
  /-- The operation asks, offers what it has offered before, or is refused. -/
  | kept (operation : Ledger.Operation) : Advances H ledger operation ledger
  | appended {transaction : Transaction}
      (inOrder : transaction.index = UInt64.ofNat (ledger.positionsOf transaction.stream).length)
      (fresh : ledger.positions.lookup transaction.digest = none) :
      Advances H ledger (.store transaction) (ledger.appended transaction)
  | extended {maxExponent : Nat} {now : Int64} {header : Header}
      (settled : ∀ block ∈ ledger.blocks.getLast?, block.isFinalized = true)
      (waiting : Block.nextPosition ledger.blocks.getLast? < UInt64.ofNat ledger.transactions.length)
      (made : Header.next H ledger.blocks.getLast?
        ((ledger.inBlock (ledger.nextBlock maxExponent header)).map (·.payload)) now = .ok header) :
      Advances H ledger (.propose maxExponent now)
        (ledger.extended H (ledger.nextBlock maxExponent header))
  | finalized {name : Digest} {publication : Publication} {earlier : List Block} {block : Block}
      (whole : ledger.blocks = earlier ++ [block]) (pending : block.publication = none)
      (digest : block.digest H = name) :
      Advances H ledger (.finalize name publication)
        { ledger with blocks := earlier ++ [{ block with publication := some publication }] }

theorem Sound.advances (sound : Sound H ledger) (operation : Ledger.Operation) :
    Advances H ledger operation (operation.run H ledger).2 := by
  cases operation with
  | store transaction =>
    show Advances H ledger _ (Ledger.answerOf ledger (ledger.store transaction)).2
    cases accepted : ledger.store transaction with
    | error error => exact .kept _
    | ok changed =>
      obtain ⟨inOrder, fresh, rfl⟩ := of_store_eq_ok accepted
      exact .appended inOrder fresh
  | propose maxExponent now =>
    simp only [Ledger.Operation.run, Ledger.propose]
    cases answered : ledger.propose H maxExponent now with
    | error error => exact .kept _
    | ok result =>
      obtain ⟨proposal, changed⟩ := result
      simp only
      cases proposes_of_ok answered with
      | again last pending => exact .kept _
      | nothing settled idle => exact .kept _
      | next settled waiting made => exact .extended settled waiting made
  | finalize name publication =>
    show Advances H ledger _ (Ledger.answerOf ledger (ledger.finalize name publication)).2
    cases accepted : ledger.finalize name publication with
    | error error => exact .kept _
    | ok changed =>
      obtain ⟨earlier, block, whole, pending, digest, rfl⟩ := sound.of_finalize_eq_ok accepted
      exact .finalized whole pending digest
  | transactionsOf name =>
    show Advances H ledger _ (Ledger.answerTo ledger _ (ledger.transactionsOf name)).2
    cases ledger.transactionsOf name <;> exact .kept _
  | _ => exact .kept _

/-! ### Every operation keeps the invariant -/

theorem getElem?_append_singleton {α : Type} (list : List α) (element : α) (place : Nat) :
    (list ++ [element])[place]? = if place = list.length then some element else list[place]? := by
  split
  · rename_i final
    rw [final, List.getElem?_append_right (Nat.le_refl _), Nat.sub_self]
    rfl
  · rw [List.getElem?_append]
    split
    · rfl
    · rw [List.getElem?_eq_none (by simp; omega), List.getElem?_eq_none (by omega)]

theorem positionsOf_appended (transaction : Transaction) (id : StreamId) :
    (ledger.appended transaction).positionsOf id =
      if id = transaction.stream then
        ledger.positionsOf transaction.stream ++ [ledger.transactions.length]
      else ledger.positionsOf id := by
  simp only [positionsOf, appended, lookup_cons_eq_ite]
  split <;> rfl

theorem positionsIn_appended (transaction : Transaction) (id : StreamId) :
    (ledger.appended transaction).positionsIn id =
      if id = transaction.stream then ledger.positionsIn id ++ [ledger.transactions.length]
      else ledger.positionsIn id := by
  have earlier : (List.range ledger.transactions.length).filter (fun position =>
      (ledger.transactions ++ [transaction])[position]?.map (·.stream) == some id) =
      ledger.positionsIn id := by
    refine List.filter_congr fun position member => ?_
    rw [getElem?_append_singleton, if_neg (Nat.ne_of_lt (List.mem_range.mp member))]
  show (List.range (ledger.transactions ++ [transaction]).length).filter (fun position =>
    (ledger.transactions ++ [transaction])[position]?.map (·.stream) == some id) = _
  rw [List.length_append, List.length_singleton, List.range_succ, List.filter_append, earlier]
  by_cases same : id = transaction.stream
  · simp [same]
  · have other : ¬ transaction.stream = id := fun equal => same equal.symm
    simp [same, other]

/-- A new transaction is found at the end, and every other one where it was. -/
theorem Sound.positions_appended (sound : Sound H ledger) {transaction : Transaction}
    (fresh : ledger.positions.lookup transaction.digest = none) (name : Digest) (position : Nat) :
    (ledger.appended transaction).positions.lookup name = some position ↔
      (ledger.appended transaction).transactions[position]?.map (·.digest) = some name := by
  have before := sound.positions name position
  show ((transaction.digest, ledger.transactions.length) :: ledger.positions).lookup name =
    some position ↔ (ledger.transactions ++ [transaction])[position]?.map (·.digest) = some name
  rw [lookup_cons_eq_ite, getElem?_append_singleton]
  by_cases here : position = ledger.transactions.length
  · have absent : ledger.positions.lookup name ≠ some position := fun found => by
      simpa [here] using before.mp found
    by_cases same : name = transaction.digest
    · simp [here, same]
    · have other : ¬ transaction.digest = name := fun equal => same equal.symm
      simp only [same, if_false, here, if_true, Option.map_some, Option.some.injEq, other,
        iff_false]
      exact here ▸ absent
  · rw [if_neg here]
    by_cases same : name = transaction.digest
    · rw [same, fresh] at before
      simpa [same, Ne.symm here] using before
    · rw [if_neg same, before]

theorem Sound.appended (sound : Sound H ledger) {transaction : Transaction}
    (fresh : ledger.positions.lookup transaction.digest = none) :
    Sound H (ledger.appended transaction) := by
  refine ⟨sound.positions_appended fresh, fun id => ?_, sound.tiles, ?_, sound.settled, sound.named,
    sound.latest⟩
  · rw [positionsOf_appended, positionsIn_appended, sound.streams id,
      sound.streams transaction.stream]
    split
    · rename_i same
      rw [same]
    · rfl
  · show ledger.covered ≤ (ledger.transactions ++ [transaction]).length
    rw [List.length_append]
    exact Nat.le_add_right_of_le sound.covered_le

/-- One more transaction is in no block. -/
theorem Sound.inBlock_appended (sound : Sound H ledger) (transaction : Transaction) {block : Block}
    (member : block ∈ ledger.blocks) :
    (ledger.appended transaction).inBlock block = ledger.inBlock block := by
  obtain ⟨_, ordered, before⟩ := sound.tiles.mem_bounds member
  have within := sound.covered_le
  show ((ledger.transactions ++ [transaction]).drop _).take _ = (ledger.transactions.drop _).take _
  rw [List.drop_append_of_le_length (by omega), List.take_append_of_le_length]
  rw [List.length_drop]
  omega

theorem covered_append_block (earlier : List Block) (block : Block)
    (whole : ledger.blocks = earlier ++ [block]) : ledger.covered = (block.last + 1).toNat := by
  unfold covered
  rw [whole, List.getLast?_append, List.getLast?_singleton]
  rfl

/-- If the last block is finalized, all are. -/
theorem Sound.all_finalized (sound : Sound H ledger)
    (settled : ∀ block ∈ ledger.blocks.getLast?, block.isFinalized = true) :
    ∀ block ∈ ledger.blocks, block.isFinalized = true := by
  intro block member
  have nonempty : ledger.blocks ≠ [] := List.ne_nil_of_mem member
  rw [← List.dropLast_append_getLast nonempty, List.mem_append, List.mem_singleton] at member
  rcases member with member | rfl
  · exact sound.settled block member
  · exact settled _ (List.getLast?_eq_some_getLast nonempty)

/-- Where the next block lies: after the others, with at least one transaction, and before the
end of the ledger. -/
theorem nextBlock_range (maxExponent : Nat) (header : Header)
    (waiting : Block.nextPosition ledger.blocks.getLast? <
      UInt64.ofNat ledger.transactions.length) :
    (ledger.nextBlock maxExponent header).first.toNat = ledger.covered ∧
      ledger.covered ≤ (ledger.nextBlock maxExponent header).last.toNat ∧
      (ledger.nextBlock maxExponent header).last.toNat < ledger.transactions.length ∧
      (ledger.nextBlock maxExponent header).last.toNat + 1 < 2 ^ 64 := by
  obtain ⟨ends, positive, within⟩ := nextLast_spec maxExponent waiting
  have total := toNat_ofNat_le ledger.transactions.length
  have totalLt := (UInt64.ofNat ledger.transactions.length).toNat_lt
  refine ⟨rfl, ?_, ?_, ?_⟩ <;>
  · simp only [nextBlock, Block.pending, covered]
    omega

/-- A range within the ledger has as many transactions as it has positions. -/
theorem length_slice {first last : UInt64} (within : last.toNat < ledger.transactions.length) :
    (ledger.slice first last).length = last.toNat + 1 - first.toNat := by
  rw [slice, List.length_take, List.length_drop]
  omega

theorem Sound.extended (sound : Sound H ledger) {maxExponent : Nat} {header : Header}
    (settled : ∀ block ∈ ledger.blocks.getLast?, block.isFinalized = true)
    (waiting : Block.nextPosition ledger.blocks.getLast? <
      UInt64.ofNat ledger.transactions.length) :
    Sound H (ledger.extended H (ledger.nextBlock maxExponent header)) := by
  obtain ⟨begins, ordered, within, small⟩ :=
    nextBlock_range maxExponent header waiting
  generalize ledger.nextBlock maxExponent header = block at begins ordered within small
  have covered : (ledger.extended H block).covered = block.last.toNat + 1 := by
    rw [covered_append_block ledger.blocks block rfl, UInt64.toNat_add, UInt64.toNat_one,
      Nat.mod_eq_of_lt small]
  refine ⟨sound.positions, sound.streams, ?_, ?_, ?_, fun name place found => ?_,
    fun place other standing => ?_⟩
  · rw [covered]
    exact (Tiles.append_iff block).mpr ⟨begins ▸ sound.tiles, begins ▸ ordered, rfl⟩
  · rw [covered]
    exact within
  · show ∀ other ∈ (ledger.blocks ++ [block]).dropLast, other.isFinalized = true
    rw [List.dropLast_concat]
    exact sound.all_finalized settled
  · show ∃ other, (ledger.blocks ++ [block])[place]? = some other ∧ _
    change ((block.digest H, ledger.blocks.length) :: ledger.places).lookup name = some place at found
    rw [lookup_cons_eq_ite] at found
    rw [getElem?_append_singleton]
    split at found
    · rename_i same
      cases found
      exact ⟨block, if_pos rfl, same.symm⟩
    · obtain ⟨other, standing, digest⟩ := sound.named name place found
      have before := (List.getElem?_eq_some_iff.mp standing).1
      exact ⟨other, by rw [if_neg (Nat.ne_of_lt before), standing], digest⟩
  · show ∃ later, place ≤ later ∧
      ((block.digest H, ledger.blocks.length) :: ledger.places).lookup (other.digest H) = some later
    change (ledger.blocks ++ [block])[place]? = some other at standing
    rw [lookup_cons_eq_ite]
    rw [getElem?_append_singleton] at standing
    split at standing
    · rename_i final
      cases standing
      exact ⟨ledger.blocks.length, Nat.le_of_eq final, if_pos rfl⟩
    · obtain ⟨later, after, found⟩ := sound.latest place other standing
      by_cases same : other.digest H = block.digest H
      · have before := (List.getElem?_eq_some_iff.mp standing).1
        exact ⟨ledger.blocks.length, Nat.le_of_lt before, if_pos same⟩
      · exact ⟨later, after, by rw [if_neg same, found]⟩

/-- Publishing the last block moves no block and leaves every name where it was. -/
theorem Sound.finalized (sound : Sound H ledger) {earlier : List Block} {block : Block}
    (whole : ledger.blocks = earlier ++ [block]) (publication : Publication) :
    Sound H { ledger with blocks := earlier ++ [{ block with publication := some publication }] } := by
  have tiles := sound.tiles
  have settled := sound.settled
  rw [whole, covered_append_block earlier block whole, Tiles.append_iff] at tiles
  rw [whole, List.dropLast_concat] at settled
  refine ⟨sound.positions, sound.streams, ?_, ?_, ?_, fun name place found => ?_,
    fun place other standing => ?_⟩
  · rw [covered_append_block earlier _ rfl]
    exact (Tiles.append_iff _).mpr tiles
  · rw [covered_append_block earlier _ rfl, ← covered_append_block earlier block whole]
    exact sound.covered_le
  · simp only [List.dropLast_concat]
    exact settled
  · obtain ⟨other, standing, digest⟩ := sound.named name place found
    rw [whole, getElem?_append_singleton] at standing
    show ∃ other, (earlier ++ [_])[place]? = some other ∧ _
    rw [getElem?_append_singleton]
    split at standing
    · rename_i final
      cases standing
      exact ⟨_, if_pos final, digest⟩
    · rename_i notFinal
      exact ⟨other, by rw [if_neg notFinal, standing], digest⟩
  · change (earlier ++ [_])[place]? = some other at standing
    rw [getElem?_append_singleton] at standing
    have before := sound.latest place
    rw [whole, getElem?_append_singleton] at before
    split at standing
    · rename_i final
      cases standing
      exact before block (if_pos final)
    · rename_i notFinal
      exact before other (by rw [if_neg notFinal, standing])

theorem Sound.run (sound : Sound H ledger) (operation : Ledger.Operation) :
    Sound H (operation.run H ledger).2 := by
  have step := sound.advances operation
  generalize (operation.run H ledger).2 = changed at step ⊢
  cases step with
  | kept => exact sound
  | appended inOrder fresh => exact sound.appended fresh
  | extended settled waiting made => exact sound.extended settled waiting
  | finalized whole pending digest => exact sound.finalized whole _

theorem Sound.runAll (sound : Sound H ledger) (history : List Ledger.Operation) :
    Sound H (Ledger.runAll H ledger history).2 := by
  induction history generalizing ledger with
  | nil => exact sound
  | cons operation rest inductionHypothesis => exact inductionHypothesis (sound.run operation)

/-- Transactions are never taken back. -/
theorem Sound.length_le_run (sound : Sound H ledger) (operation : Ledger.Operation) :
    ledger.transactions.length ≤ (operation.run H ledger).2.transactions.length := by
  have step := sound.advances operation
  generalize (operation.run H ledger).2 = changed at step ⊢
  cases step with
  | appended inOrder fresh =>
    show _ ≤ (ledger.transactions ++ [_]).length
    rw [List.length_append]
    exact Nat.le_add_right _ _
  | _ => exact Nat.le_refl _

theorem Sound.length_le_runAll (sound : Sound H ledger) (history : List Ledger.Operation) :
    ledger.transactions.length ≤ (Ledger.runAll H ledger history).2.transactions.length := by
  induction history generalizing ledger with
  | nil => exact Nat.le_refl _
  | cons operation rest inductionHypothesis =>
    exact Nat.le_trans (sound.length_le_run operation) (inductionHypothesis (sound.run operation))

/-! ### Blocks by their ends -/

/-- A position's block is the first that does not end before it, if that one has begun. -/
theorem Sound.covering_eq (sound : Sound H ledger) (position : Nat) :
    ledger.covering position =
      (ledger.blocks.find? fun block => decide (UInt64.ofNat position ≤ block.last)).filter
        fun block => block.contains (UInt64.ofNat position) := by
  have partitioned : ledger.blocks.Pairwise fun a b =>
      decide (b.last < UInt64.ofNat position) = true →
        decide (a.last < UInt64.ofNat position) = true := by
    refine sound.tiles.pairwise_last.imp fun {a b} before below => ?_
    exact decide_eq_true (UInt64.lt_trans before (of_decide_eq_true below))
  simp only [covering]
  rw [getElem?_partitionPoint _ partitioned]
  simp only [← decide_not, UInt64.not_lt]

/-- A block is known by its last position. -/
theorem Sound.find?_last (sound : Sound H ledger) {block : Block} (member : block ∈ ledger.blocks) :
    (ledger.blocks.find? fun other => other.last == block.last) = some block := by
  have apart := sound.tiles.pairwise_last
  generalize ledger.blocks = blocks at member apart
  induction blocks with
  | nil => cases member
  | cons head rest inductionHypothesis =>
    obtain ⟨headBefore, restApart⟩ := List.pairwise_cons.mp apart
    rcases List.mem_cons.mp member with rfl | member
    · exact List.find?_cons_of_pos (beq_self_eq_true _)
    · have different : head.last ≠ block.last := UInt64.ne_of_lt (headBefore block member)
      rw [List.find?_cons_of_neg (by simpa using different)]
      exact inductionHypothesis member restApart

end

end IndexedLedger

end StreamLedger
