/-
This file says how a ledger in memory is laid out in a table. Every slot has its content: the
bytes that the lists and indexes of the ledger say for it, if any. A table represents a ledger
when it holds these contents and nothing else. Then whatever the keyed ledger reads, by looking
up a key or by scanning a range, is what the indexed ledger finds in its lists.
-/
import StreamLedger.Ledger.Keyed
import StreamLedger.Proofs.Ledger.Sound
import StreamLedger.Proofs.Table.Key
import StreamLedger.Proofs.Wire

namespace StreamLedger

/-! ### Values under consecutive numbers -/

/-- The entries of values that stand under consecutive numbers after a stem. -/
def numbered {α : Type} (stem : Bytes) (write : α → Bytes) :
    (first : Nat) → List α → List Table.Entry
  | _, [] => []
  | first, value :: rest =>
    (stem ++ Key.number (UInt64.ofNat first), write value) :: numbered stem write (first + 1) rest

section Numbered

variable {α : Type} {stem : Bytes} {write : α → Bytes}

theorem map_snd_numbered (stem : Bytes) (first : Nat) (values : List α) :
    (numbered stem write first values).map (·.2) = values.map write := by
  induction values generalizing first with
  | nil => rfl
  | cons value rest inductionHypothesis =>
    rw [numbered, List.map_cons, List.map_cons, inductionHypothesis]

theorem mem_numbered {first : Nat} {values : List α} (small : first + values.length ≤ 2 ^ 64)
    (key bytes : Bytes) :
    (key, bytes) ∈ numbered stem write first values ↔
      ∃ index : UInt64, key = stem ++ Key.number index ∧ first ≤ index.toNat ∧
        values[index.toNat - first]?.map write = some bytes := by
  induction values generalizing first with
  | nil => simp [numbered]
  | cons value rest inductionHypothesis =>
    rw [List.length_cons] at small
    have firstSmall : first < 2 ^ 64 := by omega
    have firstNumber : (UInt64.ofNat first).toNat = first := UInt64.toNat_ofNat_of_lt' firstSmall
    rw [numbered, List.mem_cons, inductionHypothesis (by omega), Prod.mk.injEq]
    constructor
    · rintro (⟨rfl, rfl⟩ | ⟨index, rfl, after, found⟩)
      · exact ⟨UInt64.ofNat first, rfl, Nat.le_of_eq firstNumber.symm, by simp [firstNumber]⟩
      · refine ⟨index, rfl, by omega, ?_⟩
        rw [show index.toNat - first = index.toNat - (first + 1) + 1 by omega]
        exact found
    · rintro ⟨index, rfl, after, found⟩
      rcases Nat.eq_or_lt_of_le after with equal | later
      · have same : index = UInt64.ofNat first := UInt64.toNat_inj.mp (equal ▸ firstNumber.symm)
        rw [← equal, Nat.sub_self] at found
        exact Or.inl ⟨by rw [same], (Option.some.inj found).symm⟩
      · refine Or.inr ⟨index, rfl, later, ?_⟩
        rw [show index.toNat - first = index.toNat - (first + 1) + 1 by omega] at found
        exact found

theorem ascending_numbered {first : Nat} {values : List α}
    (small : first + values.length ≤ 2 ^ 64) :
    Table.Ascending (numbered stem write first values) := by
  induction values generalizing first with
  | nil => exact List.Pairwise.nil
  | cons value rest inductionHypothesis =>
    rw [List.length_cons] at small
    refine List.pairwise_cons.mpr ⟨fun entry member => ?_, inductionHypothesis (by omega)⟩
    obtain ⟨index, key, after, _⟩ := (mem_numbered (by omega) entry.1 entry.2).mp member
    have firstSmall : first < 2 ^ 64 := by omega
    rw [key, Key.lt_of_number, UInt64.lt_iff_toNat_lt, UInt64.toNat_ofNat_of_lt' firstSmall]
    exact after

/-- The last value stands under the last number. -/
theorem getLast?_numbered (first : Nat) (values : List α) :
    (numbered stem write first values).getLast?.map (·.1) =
      if values = [] then none
      else some (stem ++ Key.number (UInt64.ofNat (first + values.length - 1))) := by
  induction values generalizing first with
  | nil => rfl
  | cons value rest inductionHypothesis =>
    have tail := inductionHypothesis (first + 1)
    rw [numbered, List.getLast?_cons, if_neg (List.cons_ne_nil _ _), List.length_cons]
    cases final : (numbered stem write (first + 1) rest).getLast? with
    | none =>
      rw [final] at tail
      split at tail
      · rename_i empty
        subst empty
        rfl
      · cases tail
    | some entry =>
      rw [final] at tail
      split at tail
      · cases tail
      · rw [show first + (rest.length + 1) - 1 = first + 1 + rest.length - 1 by omega]
        exact tail

end Numbered

/-- Values that were written are read back together. -/
theorem Table.decodeAll_eq {α : Type} (format : Format α) {entries : List Table.Entry}
    {values : List α} (written : entries.map (·.2) = values.map format.encode)
    (returns : ∀ value ∈ values, format.Returns value) :
    Table.decodeAll format entries = .ok values := by
  induction values generalizing entries with
  | nil =>
    obtain rfl := List.map_eq_nil_iff.mp written
    rfl
  | cons value rest inductionHypothesis =>
    obtain ⟨entry, others, rfl, bytes, othersWritten⟩ := List.map_eq_cons_iff.mp written
    have tail := inductionHypothesis othersWritten fun other member =>
      returns other (List.mem_cons_of_mem _ member)
    simp only [Table.decodeAll, Table.decodeValue, bytes,
      Format.decode_encode (returns value List.mem_cons_self), tail, Except.map]

/-! ### What stands where -/

namespace IndexedLedger

/-- The block with a name. -/
def named (ledger : IndexedLedger) (name : Digest) : Option Block :=
  (ledger.places.lookup name).bind (ledger.blocks[·]?)

/-- The bytes under a slot's key, if the slot is taken. -/
def content (ledger : IndexedLedger) : Slot → Option Bytes
  | .transaction position => ledger.transactions[position.toNat]?.map Transaction.format.encode
  | .digest name =>
    ((ledger.positions.lookup name).map UInt64.ofNat).map Format.word64.encode
  | .streamEntry id index =>
    ((ledger.positionsOf id).map UInt64.ofNat)[index.toNat]?.map Format.word64.encode
  | .block last => (ledger.blocks.find? (·.last == last)).map Block.format.encode
  | .blockDigest name => ((ledger.named name).map (·.last)).map Format.word64.encode
  | .transactionCount =>
    (if ledger.transactions = [] then none
      else some (UInt64.ofNat ledger.transactions.length)).map Format.word64.encode

/-- The numbers and lengths in a ledger can be written in eight bytes. -/
structure Fits (ledger : IndexedLedger) : Prop where
  size : ledger.transactions.length < 2 ^ 64
  transactions : ∀ transaction ∈ ledger.transactions, transaction.Fits
  blocks : ∀ block ∈ ledger.blocks, block.Fits

theorem fits_empty : empty.Fits where
  size := by decide
  transactions transaction member := by cases member
  blocks block member := by cases member

end IndexedLedger

/-- Asking for elements that are all there gives what finding them gives. -/
theorem mapM_eq_filterMap {m : Type → Type} [Monad m] [LawfulMonad m] {α β : Type} {list : List α}
    {ask : α → m β} {find : α → Option β}
    (agree : ∀ element ∈ list, ∃ found, ask element = pure found ∧ find element = some found) :
    list.mapM ask = pure (list.filterMap find) := by
  induction list with
  | nil => exact List.mapM_nil
  | cons element rest inductionHypothesis =>
    obtain ⟨found, asked, same⟩ := agree element List.mem_cons_self
    rw [List.mapM_cons, asked, List.filterMap_cons_some same,
      inductionHypothesis fun other member => agree other (List.mem_cons_of_mem _ member)]
    rw [pure_bind, pure_bind]

namespace KeyedLedger

/-- The table holds what the lists say for every slot, and nothing else. -/
structure Represents (keyed : KeyedLedger) (indexed : IndexedLedger) : Prop where
  contents : ∀ slot : Slot, keyed.table.get? slot.key = indexed.content slot
  slots : ∀ key value, keyed.table.get? key = some value → ∃ slot : Slot, key = slot.key

theorem represents_empty : Represents empty .empty where
  contents slot := by cases slot <;> rfl
  slots key value found := by cases found

/-! ### Reading -/

namespace Represents

variable {H : DigestFunction} {keyed : KeyedLedger} {indexed : IndexedLedger}

theorem read_eq {α : Type} (represents : Represents keyed indexed) (format : Format α) (slot : Slot)
    {value : Option α} (content : indexed.content slot = value.map format.encode)
    (returns : ∀ present, value = some present → format.Returns present) :
    keyed.read format slot.key = .ok value := by
  have stands : keyed.table.get? slot.key = value.map format.encode :=
    (represents.contents slot).trans content
  rw [KeyedLedger.read, Table.read_eq stands returns, KeyedLedger.stored]

theorem size_eq (represents : Represents keyed indexed) :
    keyed.size = .ok (UInt64.ofNat indexed.transactions.length) := by
  have count := represents.read_eq Format.word64 .transactionCount rfl
    fun present _ => Format.word64_returns present
  simp only [KeyedLedger.size]
  rw [show Key.transactionCount = Slot.transactionCount.key from rfl, count]
  cases indexed.transactions <;> rfl

theorem transactionAt_eq (represents : Represents keyed indexed) (fits : indexed.Fits)
    {position : Nat} {transaction : Transaction}
    (standing : indexed.transactions[position]? = some transaction) :
    keyed.transactionAt (UInt64.ofNat position) = .ok transaction := by
  obtain ⟨bound, _⟩ := List.getElem?_eq_some_iff.mp standing
  have number : (UInt64.ofNat position).toNat = position :=
    UInt64.toNat_ofNat_of_lt' (Nat.lt_trans bound fits.size)
  have found := represents.read_eq Transaction.format (.transaction (UInt64.ofNat position))
    (show _ = (some transaction).map _ by rw [IndexedLedger.content, number, standing])
    (fun present same => by
      cases same
      exact Transaction.format_returns (fits.transactions _ (List.mem_of_getElem? standing)))
  simp only [KeyedLedger.transactionAt]
  rw [show Key.transaction _ = (Slot.transaction (UInt64.ofNat position)).key from rfl, found]
  rfl

theorem between_transactions (represents : Represents keyed indexed) (fits : indexed.Fits)
    (first last : UInt64) :
    keyed.table.between (Key.transaction first) (Key.transaction last) =
      numbered Key.transactionStem Transaction.format.encode first.toNat (indexed.slice first last) := by
  have firstLt := first.toNat_lt
  have small : first.toNat + (indexed.slice first last).length ≤ 2 ^ 64 := by
    have size := fits.size
    rw [IndexedLedger.slice, List.length_take, List.length_drop]
    omega
  -- The place of a position in the slice.
  have inSlice : ∀ position : UInt64, first ≤ position → position ≤ last →
      (indexed.slice first last)[position.toNat - first.toNat]? =
        indexed.transactions[position.toNat]? := by
    intro position after before
    have after := UInt64.le_iff_toNat_le.mp after
    have before := UInt64.le_iff_toNat_le.mp before
    rw [IndexedLedger.slice, List.getElem?_take_of_lt (by omega), List.getElem?_drop,
      Nat.add_sub_cancel' after]
  refine Table.between_eq (ascending_numbered small) fun key value => ?_
  rw [mem_numbered small]
  constructor
  · rintro ⟨position, rfl, after, found⟩
    have within := (List.getElem?_eq_some_iff.mp (Option.map_eq_some_iff.mp found).choose_spec.1).1
    rw [IndexedLedger.slice, List.length_take] at within
    have after : first ≤ position := UInt64.le_iff_toNat_le.mpr after
    have before : position ≤ last := UInt64.le_iff_toNat_le.mpr (by omega)
    rw [inSlice position after before] at found
    refine ⟨?_, (Key.le_of_number _ _).mpr after, (Key.le_of_number _ _).mpr before⟩
    exact (represents.contents (.transaction position)).trans found
  · rintro ⟨found, after, before⟩
    obtain ⟨slot, rfl⟩ := represents.slots key value found
    obtain ⟨position, rfl⟩ := Slot.eq_transaction_of_isPrefix
      (isPrefix_of_le_of_le (List.prefix_append _ _) (List.prefix_append _ _) after before)
    have after : first ≤ position := (Key.le_of_number _ _).mp after
    have before : position ≤ last := (Key.le_of_number _ _).mp before
    refine ⟨position, rfl, UInt64.le_iff_toNat_le.mp after, ?_⟩
    rw [inSlice position after before]
    exact (represents.contents (.transaction position)).symm.trans found

theorem slice_eq (represents : Represents keyed indexed) (fits : indexed.Fits)
    (first last : UInt64) : keyed.slice first last = .ok (indexed.slice first last) := by
  have decoded := Table.decodeAll_eq Transaction.format
    (map_snd_numbered Key.transactionStem first.toNat (indexed.slice first last))
    fun transaction member => Transaction.format_returns
      (fits.transactions _ (List.mem_of_mem_drop (List.mem_of_mem_take member)))
  simp only [KeyedLedger.slice, Table.readBetween]
  rw [represents.between_transactions fits, decoded]
  rfl

theorem inBlock_eq (represents : Represents keyed indexed) (fits : indexed.Fits) (block : Block) :
    keyed.inBlock block = .ok (indexed.inBlock block) :=
  represents.slice_eq fits block.first block.last

/-! ### Streams -/

theorem under_stream (represents : Represents keyed indexed) {id : StreamId}
    (small : (indexed.positionsOf id).length ≤ 2 ^ 64) :
    keyed.table.under (Key.stream id) =
      numbered (Key.stream id) Format.word64.encode 0 ((indexed.positionsOf id).map UInt64.ofNat) := by
  have small : 0 + ((indexed.positionsOf id).map UInt64.ofNat).length ≤ 2 ^ 64 := by
    rw [Nat.zero_add, List.length_map]
    exact small
  refine Table.under_eq (ascending_numbered small) fun key value => ?_
  rw [mem_numbered small]
  simp only [Nat.sub_zero, Nat.zero_le, true_and]
  constructor
  · rintro ⟨index, rfl, found⟩
    exact ⟨(represents.contents (.streamEntry id index)).trans found, List.prefix_append _ _⟩
  · rintro ⟨found, prefixed⟩
    obtain ⟨slot, rfl⟩ := represents.slots key value found
    obtain ⟨index, rfl⟩ := Slot.eq_streamEntry_of_isPrefix prefixed
    exact ⟨index, rfl, (represents.contents (.streamEntry id index)).symm.trans found⟩

/-- A stream has at most as many transactions as there are. -/
theorem length_positionsOf_le (sound : indexed.Sound H) (id : StreamId) :
    (indexed.positionsOf id).length ≤ indexed.transactions.length := by
  rw [sound.streams, IndexedLedger.positionsIn]
  exact Nat.le_trans (List.length_filter_le _ _) (Nat.le_of_eq List.length_range)

/-- The last place in a stream that is taken. -/
theorem lastKeyUnder_stream (represents : Represents keyed indexed) (sound : indexed.Sound H)
    (fits : indexed.Fits) (id : StreamId) :
    keyed.table.lastKeyUnder (Key.stream id) =
      if indexed.positionsOf id = [] then none
      else some (Key.stream id ++
        Key.number (UInt64.ofNat ((indexed.positionsOf id).length - 1))) := by
  have size := fits.size
  have atMost := length_positionsOf_le sound id
  rw [Table.lastKeyUnder, represents.under_stream (by omega), getLast?_numbered, List.length_map,
    Nat.zero_add]
  simp only [List.map_eq_nil_iff]

theorem nextIndex_eq (represents : Represents keyed indexed) (sound : indexed.Sound H)
    (fits : indexed.Fits) (id : StreamId) :
    keyed.nextIndex id = .ok (UInt64.ofNat (indexed.positionsOf id).length) := by
  rw [nextIndex, represents.lastKeyUnder_stream sound fits]
  cases positions : indexed.positionsOf id with
  | nil => rfl
  | cons first rest =>
    rw [if_neg (List.cons_ne_nil _ _), List.length_cons, Nat.add_sub_cancel]
    simp only [Key.lastNumber_append_number, stored, Except.map]
    rw [UInt64.ofNat_add]
    rfl

theorem streamPositions_eq (represents : Represents keyed indexed) (sound : indexed.Sound H)
    (fits : indexed.Fits) (id : StreamId) :
    keyed.streamPositions id = .ok ((indexed.positionsOf id).map UInt64.ofNat) := by
  have size := fits.size
  have atMost := length_positionsOf_le sound id
  have decoded := Table.decodeAll_eq Format.word64
    (map_snd_numbered (Key.stream id) 0 ((indexed.positionsOf id).map UInt64.ofNat))
    fun position _ => Format.word64_returns position
  simp only [streamPositions]
  rw [represents.under_stream (by omega), decoded]
  rfl

theorem stream_eq (represents : Represents keyed indexed) (sound : indexed.Sound H)
    (fits : indexed.Fits) (id : StreamId) : keyed.stream id = .ok (indexed.stream id) := by
  simp only [KeyedLedger.stream, represents.streamPositions_eq sound fits, bind, Except.bind]
  rw [List.mapM_map]
  refine mapM_eq_filterMap fun position member => ?_
  have standing := List.getElem?_eq_getElem (sound.lt_of_mem_positionsOf member)
  exact ⟨_, represents.transactionAt_eq fits standing, standing⟩

/-! ### Blocks -/

theorem under_blocks (represents : Represents keyed indexed) (sound : indexed.Sound H) :
    keyed.table.under Key.blockStem =
      indexed.blocks.map fun block => (Key.block block.last, Block.format.encode block) := by
  refine Table.under_eq ?_ fun key value => ?_
  · refine List.pairwise_map.mpr (sound.tiles.pairwise_last.imp fun {a b} before => ?_)
    exact (Key.lt_of_number _ _).mpr before
  · rw [List.mem_map]
    constructor
    · rintro ⟨block, member, same⟩
      cases same
      refine ⟨(represents.contents (.block block.last)).trans ?_, List.prefix_append _ _⟩
      rw [IndexedLedger.content, sound.find?_last member]
      rfl
    · rintro ⟨found, prefixed⟩
      obtain ⟨slot, rfl⟩ := represents.slots key value found
      obtain ⟨last, rfl⟩ := Slot.eq_block_of_isPrefix prefixed
      rw [represents.contents] at found
      obtain ⟨block, standing, rfl⟩ := Option.map_eq_some_iff.mp found
      have ends : block.last = last := by simpa using List.find?_some standing
      exact ⟨block, List.mem_of_find?_eq_some standing, by rw [ends]; rfl⟩

/-- What a scan of blocks decodes. -/
theorem decodeAll_blocks (fits : indexed.Fits) {blocks : List Block}
    (sub : blocks ⊆ indexed.blocks) :
    Table.decodeAll Block.format
      (blocks.map fun block => (Key.block block.last, Block.format.encode block)) = .ok blocks := by
  refine Table.decodeAll_eq Block.format ?_ fun block member =>
    Block.format_returns (fits.blocks _ (sub member))
  rw [List.map_map]
  rfl

theorem decodeOptional_block (fits : indexed.Fits) {block : Option Block}
    (member : ∀ present, block = some present → present ∈ indexed.blocks) :
    Table.decodeOptional Block.format
      (block.map fun block => (Key.block block.last, Block.format.encode block)) = .ok block := by
  cases block with
  | none => rfl
  | some block =>
    have returns := Block.format_returns (fits.blocks block (member block rfl))
    simp only [Option.map_some, Table.decodeOptional, Table.decodeValue,
      Format.decode_encode returns]
    rfl

theorem covering_eq (represents : Represents keyed indexed) (sound : indexed.Sound H)
    (fits : indexed.Fits) (position : Nat) :
    keyed.covering (UInt64.ofNat position) = .ok (indexed.covering position) := by
  have under : Key.blockStem <+: Key.block (UInt64.ofNat position) := List.prefix_append _ _
  simp only [KeyedLedger.covering, Table.readFirstFrom]
  rw [Table.firstFrom_filter _ under, represents.under_blocks sound,
    List.find?_map, decodeOptional_block fits fun block found => List.mem_of_find?_eq_some found,
    sound.covering_eq]
  simp only [stored, bind, Except.bind, pure, Except.pure, Function.comp_def, Key.block,
    Key.le_of_number]

theorem last_eq (represents : Represents keyed indexed) (sound : indexed.Sound H)
    (fits : indexed.Fits) :
    stored (keyed.table.readLastUnder Block.format Key.blockStem) = .ok indexed.blocks.getLast? := by
  simp only [Table.readLastUnder]
  rw [represents.under_blocks sound, List.getLast?_map,
    decodeOptional_block fits fun block found => List.mem_of_getLast? found]
  rfl

theorem named_eq (represents : Represents keyed indexed) (sound : indexed.Sound H)
    (fits : indexed.Fits) (name : Digest) : keyed.named name = .ok (indexed.named name) := by
  have ends := represents.read_eq Format.word64 (.blockDigest name) rfl
    fun present _ => Format.word64_returns present
  simp only [KeyedLedger.named]
  rw [show Key.blockDigest name = (Slot.blockDigest name).key from rfl, ends]
  cases found : indexed.named name with
  | none => rfl
  | some block =>
    obtain ⟨place, _, standing⟩ := Option.bind_eq_some_iff.mp found
    have member : block ∈ indexed.blocks := List.mem_of_getElem? standing
    have whole := represents.read_eq Block.format (.block block.last)
      (show _ = (some block).map _ by rw [IndexedLedger.content, sound.find?_last member])
      (fun present same => by
        cases same
        exact Block.format_returns (fits.blocks block member))
    simp only [Option.map_some, bind, Except.bind]
    rw [show Key.block block.last = (Slot.block block.last).key from rfl, whole]
    rfl

end Represents

end KeyedLedger

end StreamLedger
