/-
This file proves that a ledger in a table and a ledger in memory cannot be told apart. Every
operation gives the same answer on a table as on the ledger that it represents, a refusal with
the same reason included, and the table after it represents the ledger after it. What an
operation writes is a few slots whose contents have changed, and all other contents stay.
-/
import StreamLedger.Proofs.Ledger.Layout

namespace StreamLedger

/-- Both give the same refusal, or results that belong together. -/
inductive Agree {α β : Type} (related : α → β → Prop) :
    Except LedgerError α → Except LedgerError β → Prop
  | refused (error : LedgerError) : Agree related (.error error) (.error error)
  | done {a : α} {b : β} (same : related a b) : Agree related (.ok a) (.ok b)

/-! ### Writing -/

namespace KeyedLedger.Represents

variable {H : DigestFunction} {keyed : KeyedLedger} {indexed : IndexedLedger}

/-- A table represents the changed ledger after the contents that changed were written to it. -/
theorem insertAll (represents : Represents keyed indexed) {writes : List (Slot × Bytes)}
    {changed : IndexedLedger} (distinct : writes.Pairwise fun a b => a.1 ≠ b.1)
    (written : ∀ write ∈ writes, changed.content write.1 = some write.2)
    (kept : ∀ slot, (∀ write ∈ writes, slot ≠ write.1) →
      changed.content slot = indexed.content slot) :
    Represents ⟨keyed.table.insertAll (writes.map fun write => (write.1.key, write.2))⟩ changed where
  contents slot := by
    by_cases taken : ∃ write ∈ writes, slot = write.1
    · obtain ⟨write, member, rfl⟩ := taken
      rw [written write member]
      have keys : (writes.map fun write => (write.1.key, write.2)).Pairwise fun a b => a.1 ≠ b.1 :=
        List.pairwise_map.mpr (distinct.imp fun different same => different (Slot.key_injective same))
      exact Table.get?_insertAll_of_mem keys (List.mem_map_of_mem member)
    · have elsewhere : ∀ write ∈ writes, slot ≠ write.1 := fun write member same =>
        taken ⟨write, member, same⟩
      rw [kept slot elsewhere, ← represents.contents slot]
      refine Table.get?_insertAll_of_forall_ne fun entry entryMember => ?_
      obtain ⟨write, member, rfl⟩ := List.mem_map.mp entryMember
      exact fun same => elsewhere write member (Slot.key_injective same)
  slots key value found := by
    by_cases taken : ∃ write ∈ writes, key = write.1.key
    · obtain ⟨write, _, rfl⟩ := taken
      exact ⟨write.1, rfl⟩
    · refine represents.slots key value (.trans (Eq.symm ?_) found)
      refine Table.get?_insertAll_of_forall_ne fun entry entryMember same => ?_
      obtain ⟨write, member, rfl⟩ := List.mem_map.mp entryMember
      exact taken ⟨write, member, same⟩

/-- What storing a transaction writes. -/
def appendedContents (position : UInt64) (transaction : Transaction) : List (Slot × Bytes) :=
  [(.transaction position, Transaction.format.encode transaction),
    (.digest transaction.digest, Format.word64.encode position),
    (.streamEntry transaction.stream transaction.index, Format.word64.encode position),
    (.transactionCount, Format.word64.encode (position + 1))]

theorem appended (represents : Represents keyed indexed) (sound : indexed.Sound H)
    (fits : indexed.Fits) {transaction : Transaction}
    (inOrder : transaction.index = UInt64.ofNat (indexed.positionsOf transaction.stream).length) :
    Represents ⟨keyed.table.insertAll
        ((appendedContents (UInt64.ofNat indexed.transactions.length) transaction).map
          fun write => (write.1.key, write.2))⟩ (indexed.appended transaction) := by
  have size := fits.size
  have atMost := length_positionsOf_le sound transaction.stream
  have position : (UInt64.ofNat indexed.transactions.length).toNat = indexed.transactions.length :=
    UInt64.toNat_ofNat_of_lt' size
  have indexSmall : (indexed.positionsOf transaction.stream).length < 2 ^ 64 := by omega
  have index : transaction.index.toNat = (indexed.positionsOf transaction.stream).length := by
    rw [inOrder, UInt64.toNat_ofNat_of_lt' indexSmall]
  refine represents.insertAll (by simp [appendedContents]) (fun write member => ?_)
    fun slot elsewhere => ?_
  · simp only [appendedContents, List.mem_cons, List.not_mem_nil, or_false] at member
    rcases member with rfl | rfl | rfl | rfl
    · simp only [IndexedLedger.content, IndexedLedger.appended, position,
        IndexedLedger.getElem?_append_singleton, if_true, Option.map_some]
    · simp only [IndexedLedger.content, IndexedLedger.appended, lookup_cons_eq_ite, if_true,
        Option.map_some]
    · simp only [IndexedLedger.content, IndexedLedger.positionsOf_appended, if_true, List.map_append, List.map_cons,
        List.map_nil, IndexedLedger.getElem?_append_singleton, List.length_map, index,
        Option.map_some]
    · simp [IndexedLedger.content, IndexedLedger.appended, UInt64.ofNat_add]
  · simp only [appendedContents, List.forall_mem_cons, List.not_mem_nil, false_implies,
      implies_true, and_true] at elsewhere
    obtain ⟨otherPosition, otherDigest, otherIndex, notCount⟩ := elsewhere
    cases slot with
    | transaction other =>
      have different : other.toNat ≠ indexed.transactions.length := fun same =>
        otherPosition (by rw [← same, UInt64.ofNat_toNat])
      simp only [IndexedLedger.content, IndexedLedger.appended,
        IndexedLedger.getElem?_append_singleton, if_neg different]
    | digest name =>
      have different : name ≠ transaction.digest := fun same => otherDigest (by rw [same])
      simp only [IndexedLedger.content, IndexedLedger.appended, lookup_cons_eq_ite,
        if_neg different]
    | streamEntry id other =>
      simp only [IndexedLedger.content, IndexedLedger.positionsOf_appended]
      split
      · rename_i same
        have different : other.toNat ≠ (indexed.positionsOf transaction.stream).length :=
          fun equal => otherIndex (by rw [same, UInt64.toNat_inj.mp (equal.trans index.symm)])
        simp only [List.map_append, List.map_cons, List.map_nil,
          IndexedLedger.getElem?_append_singleton, List.length_map, if_neg different, same]
      · rfl
    | transactionCount => exact absurd rfl notCount
    | _ => rfl

/-- What making a block writes. -/
def extendedContents (H : DigestFunction) (block : Block) : List (Slot × Bytes) :=
  [(.block block.last, Block.format.encode block),
    (.blockDigest (block.digest H), Format.word64.encode block.last)]

theorem extended (represents : Represents keyed indexed) (sound : indexed.Sound H) {block : Block}
    (later : ∀ other ∈ indexed.blocks, other.last ≠ block.last) :
    Represents ⟨keyed.table.insertAll
        ((extendedContents H block).map fun write => (write.1.key, write.2))⟩
      (indexed.extended H block) := by
  have named : ∀ name, (indexed.extended H block).named name =
      if name = block.digest H then some block else indexed.named name := by
    intro name
    simp only [IndexedLedger.named, IndexedLedger.extended, lookup_cons_eq_ite]
    split
    · rw [Option.bind_some, IndexedLedger.getElem?_append_singleton, if_pos rfl]
    · cases found : indexed.places.lookup name with
      | none => rfl
      | some place =>
        obtain ⟨other, standing, _⟩ := sound.named name place found
        have before := (List.getElem?_eq_some_iff.mp standing).1
        rw [Option.bind_some, Option.bind_some, IndexedLedger.getElem?_append_singleton,
          if_neg (Nat.ne_of_lt before)]
  refine represents.insertAll (by simp [extendedContents]) (fun write member => ?_)
    fun slot elsewhere => ?_
  · simp only [extendedContents, List.mem_cons, List.not_mem_nil, or_false] at member
    rcases member with rfl | rfl
    · have absent : indexed.blocks.find? (·.last == block.last) = none :=
        List.find?_eq_none.mpr fun other member same => later other member (beq_iff_eq.mp same)
      simp [IndexedLedger.content, IndexedLedger.extended, List.find?_append, absent]
    · simp only [IndexedLedger.content, named, if_true, Option.map_some]
  · simp only [extendedContents, List.forall_mem_cons, List.not_mem_nil, false_implies,
      implies_true, and_true] at elsewhere
    obtain ⟨otherLast, otherName⟩ := elsewhere
    cases slot with
    | block last =>
      have absent : [block].find? (·.last == last) = none :=
        List.find?_cons_of_neg fun same => otherLast (by rw [beq_iff_eq.mp same])
      simp only [IndexedLedger.content, IndexedLedger.extended, List.find?_append, absent,
        Option.or_none]
    | blockDigest name =>
      have different : name ≠ block.digest H := fun same => otherName (by rw [same])
      simp only [IndexedLedger.content, named, if_neg different]
    | _ => rfl

/-- Publishing the last block writes that block again, and moves nothing. -/
theorem finalized (represents : Represents keyed indexed) (sound : indexed.Sound H)
    {earlier : List Block} {block : Block} (whole : indexed.blocks = earlier ++ [block])
    (publication : Publication) :
    Represents ⟨keyed.table.put Block.format (Key.block block.last)
        { block with publication := some publication }⟩
      { indexed with blocks := earlier ++ [{ block with publication := some publication }] } := by
  have absent : earlier.find? (·.last == block.last) = none := by
    have apart := sound.tiles.pairwise_last
    rw [whole, List.pairwise_append] at apart
    refine List.find?_eq_none.mpr fun other member same => ?_
    have before := apart.2.2 other member block (List.mem_singleton.mpr rfl)
    exact UInt64.ne_of_lt before (beq_iff_eq.mp same)
  show Represents ⟨keyed.table.insertAll ([(Slot.block block.last, Block.format.encode
    { block with publication := some publication })].map fun write => (write.1.key, write.2))⟩ _
  refine represents.insertAll (List.pairwise_singleton _ _) (fun write member => ?_)
    fun slot elsewhere => ?_
  · obtain rfl := List.mem_singleton.mp member
    simp [IndexedLedger.content, List.find?_append, absent]
  · have elsewhere := elsewhere _ (List.mem_singleton.mpr rfl)
    cases slot with
    | block last =>
      have absent : ∀ other : Block, other.last = block.last →
          [other].find? (·.last == last) = none := fun other ends =>
        List.find?_cons_of_neg fun same => elsewhere (by rw [← beq_iff_eq.mp same, ends])
      simp only [IndexedLedger.content, whole, List.find?_append]
      rw [absent block rfl, absent { block with publication := some publication } rfl]
    | blockDigest name =>
      simp only [IndexedLedger.content, IndexedLedger.named, whole]
      cases indexed.places.lookup name with
      | none => rfl
      | some place =>
        simp only [Option.bind_some, IndexedLedger.getElem?_append_singleton]
        split <;> rfl
    | _ => rfl

/-! ### Questions -/

theorem status_eq (represents : Represents keyed indexed) (sound : indexed.Sound H)
    (fits : indexed.Fits) (name : Digest) : keyed.status name = .ok (indexed.status name) := by
  have position := represents.read_eq Format.word64 (.digest name) rfl
    fun present _ => Format.word64_returns present
  simp only [KeyedLedger.status, IndexedLedger.status]
  rw [show Key.transactionDigest name = (Slot.digest name).key from rfl, position]
  cases indexed.positions.lookup name with
  | none => rfl
  | some position =>
    simp only [Option.map_some, bind, Except.bind, represents.covering_eq sound fits]
    cases indexed.covering position <;> rfl

theorem blockOf_eq (represents : Represents keyed indexed) (sound : indexed.Sound H)
    (fits : indexed.Fits) (name : Digest) : keyed.blockOf name = .ok (indexed.blockOf name) := by
  have position := represents.read_eq Format.word64 (.digest name) rfl
    fun present _ => Format.word64_returns present
  simp only [KeyedLedger.blockOf, IndexedLedger.blockOf]
  rw [show Key.transactionDigest name = (Slot.digest name).key from rfl, position]
  cases indexed.positions.lookup name with
  | none => rfl
  | some position =>
    simp only [Option.map_some, bind, Except.bind, represents.covering_eq sound fits,
      Option.bind_some]

theorem transactionsOf_eq (represents : Represents keyed indexed) (sound : indexed.Sound H)
    (fits : indexed.Fits) (name : Digest) :
    keyed.transactionsOf name = indexed.transactionsOf name := by
  simp only [KeyedLedger.transactionsOf, IndexedLedger.transactionsOf, bind, Except.bind,
    represents.named_eq sound fits]
  rw [← IndexedLedger.named]
  cases indexed.named name with
  | none => rfl
  | some block => exact represents.inBlock_eq fits block

theorem page_eq (represents : Represents keyed indexed) (sound : indexed.Sound H)
    (fits : indexed.Fits) (skip take : Nat) (withTransactions : Bool) :
    keyed.page skip take withTransactions = .ok (indexed.page skip take withTransactions) := by
  have within : (indexed.blocks.drop skip).take take ⊆ indexed.blocks := fun block member =>
    List.mem_of_mem_drop (List.mem_of_mem_take member)
  have decoded := decodeAll_blocks fits within
  simp only [KeyedLedger.page, Table.readUnder, represents.under_blocks sound, bind, Except.bind]
  rw [← List.map_drop, ← List.map_take, decoded]
  have places : (indexed.blocks.zipIdx.drop skip).take take =
      ((indexed.blocks.drop skip).take take).zipIdx.map fun entry =>
        (entry.1, skip + entry.2) := by
    ext place entry
    simp only [List.getElem?_take, List.getElem?_drop, List.getElem?_zipIdx, List.getElem?_map,
      Nat.zero_add]
    split <;> simp [Function.comp_def]
  rw [IndexedLedger.page, places, List.map_map, ← List.filterMap_eq_map]
  refine mapM_eq_filterMap fun entry _ => ⟨_, ?_, rfl⟩
  cases withTransactions with
  | false => rfl
  | true =>
    simp only [if_true, represents.inBlock_eq fits]
    rfl

/-! ### Changes -/

theorem store_agrees (represents : Represents keyed indexed) (sound : indexed.Sound H)
    (fits : indexed.Fits) (transaction : Transaction) :
    Agree Represents (keyed.store transaction) (indexed.store transaction) := by
  have known : keyed.table.contains (Key.transactionDigest transaction.digest) =
      (indexed.positions.lookup transaction.digest).isSome := by
    simp only [Table.contains]
    rw [show Key.transactionDigest _ = (Slot.digest transaction.digest).key from rfl,
      represents.contents, IndexedLedger.content, Option.isSome_map, Option.isSome_map]
  simp only [KeyedLedger.store, IndexedLedger.store, bind, Except.bind,
    represents.nextIndex_eq sound fits, represents.size_eq, known]
  split
  · exact .refused _
  · rename_i inOrder
    split
    · exact .refused _
    · exact .done (represents.appended sound fits (Classical.not_not.mp inOrder))

/-- All the transactions of the next block are there. -/
theorem batch_eq (maxExponent : Nat)
    (waiting : Block.nextPosition indexed.blocks.getLast? <
      UInt64.ofNat indexed.transactions.length) :
    UInt64.ofNat (indexed.slice (Block.nextPosition indexed.blocks.getLast?)
        (nextLast (Block.nextPosition indexed.blocks.getLast?)
          (UInt64.ofNat indexed.transactions.length) maxExponent)).length =
      UInt64.ofNat (blockSize (UInt64.ofNat indexed.transactions.length -
        Block.nextPosition indexed.blocks.getLast?).toNat maxExponent) := by
  obtain ⟨ends, positive, before⟩ := nextLast_spec maxExponent waiting
  have total := toNat_ofNat_le indexed.transactions.length
  have within : (nextLast (Block.nextPosition indexed.blocks.getLast?)
      (UInt64.ofNat indexed.transactions.length) maxExponent).toNat < indexed.transactions.length := by
    omega
  rw [UInt64.toNat_sub_of_le _ _ (UInt64.le_of_lt waiting), IndexedLedger.length_slice within,
    ends, Nat.add_sub_cancel_left]

theorem extend_agrees (represents : Represents keyed indexed) (sound : indexed.Sound H)
    (fits : indexed.Fits) (maxExponent : Nat) (now : Int64) :
    Agree (fun a b => a.1 = b.1 ∧ Represents a.2 b.2)
      (keyed.extend H maxExponent now indexed.blocks.getLast?)
      (indexed.extend H maxExponent now indexed.blocks.getLast?) := by
  simp only [KeyedLedger.extend, IndexedLedger.extend, bind, Except.bind, represents.size_eq,
    represents.slice_eq fits]
  split
  · exact .done ⟨rfl, represents⟩
  · rename_i waiting
    have waiting := UInt64.not_le.mp waiting
    have whole := batch_eq maxExponent waiting
    simp only [nextLast] at whole
    rw [if_neg (not_not_intro whole)]
    split
    · rename_i error refused
      simp only [refused]
      exact .refused error
    · rename_i header made
      simp only [made]
      obtain ⟨_, after, _, _⟩ := IndexedLedger.nextBlock_range maxExponent header waiting
      have later : ∀ other ∈ indexed.blocks,
          other.last ≠ (indexed.nextBlock maxExponent header).last := by
        intro other member same
        have before := (sound.tiles.mem_bounds member).2.2
        exact absurd (congrArg UInt64.toNat same) (Nat.ne_of_lt (Nat.lt_of_lt_of_le before after))
      have after := represents.extended sound later
      simp only [extendedContents, List.map_cons, List.map_nil, Slot.key,
        IndexedLedger.nextBlock, nextLast, IndexedLedger.extended] at after
      exact .done ⟨rfl, after⟩

theorem propose_agrees (represents : Represents keyed indexed) (sound : indexed.Sound H)
    (fits : indexed.Fits) (maxExponent : Nat) (now : Int64) :
    Agree (fun a b => a.1 = b.1 ∧ Represents a.2 b.2)
      (keyed.propose H maxExponent now) (indexed.propose H maxExponent now) := by
  have extension := represents.extend_agrees sound fits maxExponent now
  simp only [KeyedLedger.propose, IndexedLedger.propose, bind, Except.bind,
    represents.last_eq sound fits, represents.inBlock_eq fits]
  cases last : indexed.blocks.getLast? with
  | none =>
    rw [last] at extension
    exact extension
  | some block =>
    rw [last] at extension
    by_cases finalized : block.isFinalized = true
    · simp only [finalized, if_true]
      exact extension
    · simp only [finalized]
      exact .done ⟨rfl, represents⟩

theorem finalize_agrees (represents : Represents keyed indexed) (sound : indexed.Sound H)
    (fits : indexed.Fits) (name : Digest) (publication : Publication) :
    Agree Represents (keyed.finalize name publication) (indexed.finalize name publication) := by
  simp only [KeyedLedger.finalize, IndexedLedger.finalize, bind, Except.bind,
    represents.named_eq sound fits, IndexedLedger.named]
  cases indexed.places.lookup name with
  | none => exact .refused _
  | some place =>
    cases standing : indexed.blocks[place]? with
    | none => simpa only [Option.bind_some, standing] using .refused _
    | some block =>
      simp only [Option.bind_some, standing]
      by_cases finalized : block.isFinalized = true
      · simp only [finalized, if_true]
        exact .refused _
      · obtain ⟨earlier, whole, rfl⟩ := IndexedLedger.eq_append_of_not_mem_dropLast standing
          fun member => finalized (sound.settled block member)
        simp only [finalized]
        rw [whole, List.set_append_right _ _ (Nat.le_refl _), Nat.sub_self]
        exact .done (represents.finalized sound whole publication)

end KeyedLedger.Represents

/-! ### Histories -/

/-- The byte strings that an operation brings along have lengths that fit into eight bytes. -/
def Ledger.Operation.Fits : Ledger.Operation → Prop
  | .store transaction => transaction.Fits
  | .finalize _ publication => publication.Fits
  | _ => True

section

variable {H : DigestFunction} {keyed : KeyedLedger} {indexed : IndexedLedger}

namespace IndexedLedger

theorem Fits.appended (fits : indexed.Fits) {transaction : Transaction}
    (transactionFits : transaction.Fits)
    (small : (indexed.appended transaction).transactions.length < 2 ^ 64) :
    (indexed.appended transaction).Fits := by
  refine ⟨small, fun other member => ?_, fits.blocks⟩
  rcases List.mem_append.mp member with member | member
  · exact fits.transactions other member
  · rw [List.mem_singleton.mp member]
    exact transactionFits

theorem Fits.extended (fits : indexed.Fits) {block : Block} (blockFits : block.Fits) :
    (indexed.extended H block).Fits := by
  refine ⟨fits.size, fits.transactions, fun other member => ?_⟩
  rcases List.mem_append.mp member with member | member
  · exact fits.blocks other member
  · rw [List.mem_singleton.mp member]
    exact blockFits

/-- A block without a publication is small. -/
theorem nextBlock_fits (maxExponent : Nat) (header : Header) :
    (indexed.nextBlock maxExponent header).Fits := by
  intro publication published
  cases published

theorem Fits.finalized (fits : indexed.Fits) {earlier : List Block} {block : Block}
    (whole : indexed.blocks = earlier ++ [block]) {publication : Publication}
    (publicationFits : publication.Fits) :
    IndexedLedger.Fits
      { indexed with blocks := earlier ++ [{ block with publication := some publication }] } := by
  refine ⟨fits.size, fits.transactions, fun other member => ?_⟩
  rcases List.mem_append.mp member with member | member
  · exact fits.blocks other (whole ▸ List.mem_append_left _ member)
  · rw [List.mem_singleton.mp member]
    intro given published
    cases published
    exact publicationFits

theorem Fits.run (fits : indexed.Fits) (sound : indexed.Sound H)
    {operation : Ledger.Operation} (operationFits : operation.Fits)
    (small : (operation.run H indexed).2.transactions.length < 2 ^ 64) :
    (operation.run H indexed).2.Fits := by
  have step := sound.advances operation
  generalize (operation.run H indexed).2 = changed at step small ⊢
  cases step with
  | kept => exact fits
  | appended inOrder fresh => exact fits.appended operationFits small
  | extended settled waiting made => exact fits.extended (nextBlock_fits _ _)
  | finalized whole pending digest => exact fits.finalized whole operationFits

end IndexedLedger

theorem KeyedLedger.Represents.answerOf_agrees (represents : keyed.Represents indexed)
    {table : Except LedgerError KeyedLedger} {memory : Except LedgerError IndexedLedger}
    (agree : Agree Represents table memory) :
    (Ledger.answerOf keyed table).1 = (Ledger.answerOf indexed memory).1 ∧
      (Ledger.answerOf keyed table).2.Represents (Ledger.answerOf indexed memory).2 := by
  cases agree with
  | refused error => exact ⟨rfl, represents⟩
  | done after => exact ⟨rfl, after⟩

/-- An operation has the same answer on the table and in memory, and the table follows. -/
theorem KeyedLedger.Represents.run (represents : keyed.Represents indexed)
    (sound : indexed.Sound H) (fits : indexed.Fits) (operation : Ledger.Operation) :
    (operation.run H keyed).1 = (operation.run H indexed).1 ∧
      (operation.run H keyed).2.Represents (operation.run H indexed).2 := by
  cases operation with
  | store transaction =>
    exact represents.answerOf_agrees (represents.store_agrees sound fits transaction)
  | status name =>
    simp only [Ledger.Operation.run, Ledger.status, represents.status_eq sound fits]
    exact ⟨rfl, represents⟩
  | stream id =>
    simp only [Ledger.Operation.run, Ledger.stream, represents.stream_eq sound fits]
    exact ⟨rfl, represents⟩
  | blockOf name =>
    simp only [Ledger.Operation.run, Ledger.blockOf, represents.blockOf_eq sound fits]
    exact ⟨rfl, represents⟩
  | page skip take withTransactions =>
    simp only [Ledger.Operation.run, Ledger.page, represents.page_eq sound fits]
    exact ⟨rfl, represents⟩
  | transactionsOf name =>
    simp only [Ledger.Operation.run, Ledger.transactionsOf, represents.transactionsOf_eq sound fits]
    cases indexed.transactionsOf name <;> exact ⟨rfl, represents⟩
  | propose maxExponent now =>
    have agree := represents.propose_agrees sound fits maxExponent now
    simp only [Ledger.Operation.run, Ledger.propose]
    generalize keyed.propose H maxExponent now = table at agree ⊢
    generalize indexed.propose H maxExponent now = memory at agree ⊢
    cases agree with
    | refused error => exact ⟨rfl, represents⟩
    | done same => exact ⟨congrArg Ledger.Answer.proposal same.1, same.2⟩
  | finalize name publication =>
    exact represents.answerOf_agrees (represents.finalize_agrees sound fits name publication)
  | size =>
    simp only [Ledger.Operation.run, Ledger.size, represents.size_eq]
    exact ⟨rfl, represents⟩

theorem IndexedLedger.Fits.runAll (fits : indexed.Fits) (sound : indexed.Sound H)
    {history : List Ledger.Operation} (operationsFit : ∀ operation ∈ history, operation.Fits)
    (small : (Ledger.runAll H indexed history).2.transactions.length < 2 ^ 64) :
    (Ledger.runAll H indexed history).2.Fits := by
  induction history generalizing indexed with
  | nil => exact fits
  | cons operation rest inductionHypothesis =>
    have soundAfter := sound.run operation
    have smallAfter : (operation.run H indexed).2.transactions.length < 2 ^ 64 :=
      Nat.lt_of_le_of_lt (soundAfter.length_le_runAll rest) small
    exact inductionHypothesis
      (fits.run sound (operationsFit operation List.mem_cons_self) smallAfter) soundAfter
      (fun other member => operationsFit other (List.mem_cons_of_mem _ member)) small

theorem KeyedLedger.Represents.runAll (represents : keyed.Represents indexed)
    (sound : indexed.Sound H) (fits : indexed.Fits) {history : List Ledger.Operation}
    (operationsFit : ∀ operation ∈ history, operation.Fits)
    (small : (Ledger.runAll H indexed history).2.transactions.length < 2 ^ 64) :
    (Ledger.runAll H keyed history).1 = (Ledger.runAll H indexed history).1 ∧
      (Ledger.runAll H keyed history).2.Represents (Ledger.runAll H indexed history).2 := by
  induction history generalizing keyed indexed with
  | nil => exact ⟨rfl, represents⟩
  | cons operation rest inductionHypothesis =>
    have soundAfter := sound.run operation
    have smallAfter : (operation.run H indexed).2.transactions.length < 2 ^ 64 :=
      Nat.lt_of_le_of_lt (soundAfter.length_le_runAll rest) small
    have fitsAfter := fits.run sound (operationsFit operation List.mem_cons_self) smallAfter
    obtain ⟨answer, represents⟩ := represents.run sound fits operation
    obtain ⟨answers, final⟩ := inductionHypothesis represents soundAfter fitsAfter
      (fun other member => operationsFit other (List.mem_cons_of_mem _ member)) small
    refine ⟨?_, final⟩
    show (operation.run H keyed).1 :: (Ledger.runAll H (operation.run H keyed).2 rest).1 = _
    rw [answer, answers]
    rfl

theorem Ledger.runAll_append {L : Type} [Ledger L] (ledger : L)
    (past future : List Ledger.Operation) :
    (Ledger.runAll H ledger (past ++ future)).2 =
      (Ledger.runAll H (Ledger.runAll H ledger past).2 future).2 := by
  induction past generalizing ledger with
  | nil => rfl
  | cons operation rest inductionHypothesis => exact inductionHypothesis (operation.run H ledger).2

/-- At any time in a history that started empty, the table represents the ledger in memory. -/
theorem KeyedLedger.represents_runAll {past history : List Ledger.Operation}
    (within : past <+: history) (operationsFit : ∀ operation ∈ history, operation.Fits)
    (small : (Ledger.runAll H IndexedLedger.empty history).2.transactions.length < 2 ^ 64) :
    (Ledger.runAll H KeyedLedger.empty past).1 = (Ledger.runAll H IndexedLedger.empty past).1 ∧
      (Ledger.runAll H KeyedLedger.empty past).2.Represents
        (Ledger.runAll H IndexedLedger.empty past).2 ∧
      (Ledger.runAll H IndexedLedger.empty past).2.Fits := by
  obtain ⟨future, rfl⟩ := within
  have sound := IndexedLedger.sound_empty H
  have pastFit : ∀ operation ∈ past, operation.Fits := fun operation member =>
    operationsFit operation (List.mem_append_left _ member)
  have smallPast : (Ledger.runAll H IndexedLedger.empty past).2.transactions.length < 2 ^ 64 := by
    refine Nat.lt_of_le_of_lt ?_ small
    rw [Ledger.runAll_append]
    exact (sound.runAll past).length_le_runAll future
  obtain ⟨answers, represents⟩ :=
    represents_empty.runAll sound IndexedLedger.fits_empty pastFit smallPast
  exact ⟨answers, represents, IndexedLedger.fits_empty.runAll sound pastFit smallPast⟩

end

/-- Whatever is asked of a ledger in a table and of one in memory, both starting empty, they give
the same answers, and at any time they have the same number of transactions. -/
theorem KeyedLedger.answers_eq_indexed (H : DigestFunction) (history : List Ledger.Operation)
    (operationsFit : ∀ operation ∈ history, operation.Fits)
    (small : (Ledger.runAll H IndexedLedger.empty history).2.transactions.length < 2 ^ 64 - 1) :
    (Ledger.runAll H KeyedLedger.empty history).1 =
        (Ledger.runAll H IndexedLedger.empty history).1 ∧
      ∀ past, past <+: history →
        (Ledger.runAll H KeyedLedger.empty past).2.size.map UInt64.toNat =
          .ok (Ledger.runAll H IndexedLedger.empty past).2.transactions.length := by
  have small : (Ledger.runAll H IndexedLedger.empty history).2.transactions.length < 2 ^ 64 := by
    omega
  refine ⟨(represents_runAll (List.prefix_refl _) operationsFit small).1, fun past within => ?_⟩
  obtain ⟨_, represents, fits⟩ := represents_runAll within operationsFit small
  rw [represents.size_eq]
  exact congrArg Except.ok (UInt64.toNat_ofNat_of_lt' fits.size)

/-- One transaction, its block, the block's publication and a question. -/
theorem KeyedLedger.answers_eq_indexed_published :
    let H : DigestFunction := fun _ => Digest.zero
    let history : List Ledger.Operation := [
      .store ⟨Digest.zero, .zero 16, 0, [1]⟩, .propose 0 0,
      .finalize Digest.zero (.logEntry Digest.zero), .status Digest.zero]
    (Ledger.runAll H KeyedLedger.empty history).1 =
      (Ledger.runAll H IndexedLedger.empty history).1 := by
  intro H history
  refine (answers_eq_indexed H history ?_ (by decide)).1
  simp only [history, List.forall_mem_cons, Ledger.Operation.Fits, Transaction.Fits,
    Publication.Fits, true_and]
  exact ⟨by decide, fun operation member => by cases member⟩

end StreamLedger
