/-
This file proves that nothing goes wrong inside a ledger. Its operations are written once more with
every access to a list and every sum and difference checked, so that they give nothing where the
machine would stop. After any history that started empty the checked operations give what the
operations give. A refusal is always one that the caller can bring about: a transaction out of its
order or known already, and a name that no block has, or no block that waits for its publication.
-/
import StreamLedger.Proofs.Ledger.Growth

namespace StreamLedger

/-! ### Steps that are checked -/

/-- The sum of two numbers, if it does not overflow. -/
def checkedAdd (a b : UInt64) : Option UInt64 :=
  if a.toNat + b.toNat < 2 ^ 64 then some (a + b) else none

/-- The difference of two numbers, if it is not below zero. -/
def checkedSub (a b : UInt64) : Option UInt64 := if b ≤ a then some (a - b) else none

/-- The elements of a list at the places `first` to `last`, if the list has such a range. -/
def checkedSlice {α : Type} (list : List α) (first last : UInt64) : Option (List α) := do
  let stop ← checkedAdd last 1
  if first ≤ stop ∧ stop.toNat ≤ list.length then
    some ((list.drop first.toNat).take (stop.toNat - first.toNat))
  else none

namespace Block

/-- The number of transactions of a block. -/
def size? (block : Block) : Option UInt64 := do
  checkedAdd (← checkedSub block.last block.first) 1

/-- The position after the last block. -/
def nextPosition? : Option Block → Option UInt64
  | none => some 0
  | some block => checkedAdd block.last 1

end Block

/-- The last position of a block that begins at `first` when there are `total` transactions. -/
def nextLast? (first total : UInt64) (maxExponent : Nat) : Option UInt64 := do
  let waiting ← checkedSub total first
  let stop ← checkedAdd first (UInt64.ofNat (blockSize waiting.toNat maxExponent))
  checkedSub stop 1

/-- What a checked operation gives, which is nothing where the machine would stop. -/
abbrev Guarded (α : Type) : Type := ExceptT LedgerError Option α

namespace Guarded

variable {α β : Type}

/-- A step that may make the machine stop. -/
def step (result : Option α) : Guarded α := ExceptT.lift result

/-- What a part gives in which the machine cannot stop. -/
def certain (result : Except LedgerError α) : Guarded α := ExceptT.mk (some result)

@[simp] theorem step_some (value : α) : step (some value) = certain (.ok value) := rfl

@[simp] theorem certain_ok_bind (value : α) (next : α → Guarded β) :
    (certain (.ok value) >>= next) = next value := rfl

@[simp] theorem certain_error_bind (error : LedgerError) (next : α → Guarded β) :
    (certain (.error error) >>= next) = certain (.error error) := rfl

theorem certain_bind (result : Except LedgerError α) (next : α → Except LedgerError β) :
    certain (result >>= next) = certain result >>= fun value => certain (next value) := by
  cases result <;> rfl

theorem certain_pure (value : α) : certain (pure value) = certain (.ok value) := rfl

theorem certain_throw (error : LedgerError) :
    (certain (throw error) : Guarded α) = certain (.error error) := rfl

@[simp] theorem pure_eq (value : α) : (pure value : Guarded α) = certain (.ok value) := rfl

@[simp] theorem throw_eq (error : LedgerError) :
    (throw error : Guarded α) = certain (.error error) := rfl

end Guarded

namespace Ledger

/-- The operations of a ledger kept in an `L`, as far as the machine might stop in them. -/
class Checked (L : Type) where
  store : L → Transaction → Guarded L
  stream : L → StreamId → Guarded (List Transaction)
  page : L → (skip take : Nat) → (withTransactions : Bool) → Guarded (List BlockEntry)
  transactionsOf : L → Digest → Guarded (List Transaction)
  propose : DigestFunction → (maxExponent : Nat) → (now : Int64) → L →
    Guarded (Option Proposal × L)
  finalize : L → Digest → Publication → Guarded L

section

variable {L : Type} [Ledger L] [Checked L]

def Operation.runChecked (H : DigestFunction) (ledger : L) : Operation → Option (Answer × L)
  | .store transaction => (Checked.store ledger transaction).run.map (answerOf ledger)
  | .status transaction => some (answerTo ledger .status (Ledger.status ledger transaction))
  | .stream id => (Checked.stream ledger id).run.map (answerTo ledger .transactions)
  | .blockOf transaction => some (answerTo ledger .block (Ledger.blockOf ledger transaction))
  | .page skip take withTransactions =>
    (Checked.page ledger skip take withTransactions).run.map (answerTo ledger .page)
  | .transactionsOf block =>
    (Checked.transactionsOf ledger block).run.map (answerTo ledger .transactions)
  | .propose maxExponent now =>
    (Checked.propose H maxExponent now ledger).run.map fun
      | .ok (proposal, changed) => (.proposal proposal, changed)
      | .error error => (.refused error, ledger)
  | .finalize block publication =>
    (Checked.finalize ledger block publication).run.map (answerOf ledger)
  | .size => some (answerTo ledger .size (Ledger.size ledger))

def runAllChecked (H : DigestFunction) : L → List Operation → Option (List Answer × L)
  | ledger, [] => some ([], ledger)
  | ledger, operation :: rest => do
    let (answer, changed) ← operation.runChecked H ledger
    let (answers, final) ← runAllChecked H changed rest
    return (answer :: answers, final)

end

end Ledger

/-! ### The checked operations of a ledger in memory -/

namespace IndexedLedger

section

variable (ledger : IndexedLedger)

def slice? (first last : UInt64) : Option (List Transaction) :=
  checkedSlice ledger.transactions first last

def inBlock? (block : Block) : Option (List Transaction) := ledger.slice? block.first block.last

def stream? (id : StreamId) : Option (List Transaction) :=
  (ledger.positionsOf id).mapM (ledger.transactions[·]?)

def page? (skip take : Nat) (withTransactions : Bool) : Option (List BlockEntry) :=
  ((ledger.blocks.zipIdx.drop skip).take take).mapM fun (block, place) => do
    let transactions ← if withTransactions then ledger.inBlock? block else some []
    return ⟨place + 1, block, transactions⟩

def transactionsOf? (block : Digest) : Guarded (List Transaction) := do
  match ledger.places.lookup block with
  | none => throw (.unknownBlock block)
  | some place =>
    let block ← Guarded.step ledger.blocks[place]?
    Guarded.step (ledger.inBlock? block)

def extend? (H : DigestFunction) (maxExponent : Nat) (now : Int64) (previous : Option Block) :
    Guarded (Option Proposal × IndexedLedger) := do
  let first ← Guarded.step (Block.nextPosition? previous)
  let total := UInt64.ofNat ledger.transactions.length
  if total ≤ first then return (none, ledger)
  let last ← Guarded.step (nextLast? first total maxExponent)
  let batch ← Guarded.step (ledger.slice? first last)
  let header ← Guarded.certain (Header.next H previous (batch.map (·.payload)) now)
  let block := Block.pending header first last
  return (some (block.proposal batch), { ledger with
    blocks := ledger.blocks ++ [block]
    places := (block.digest H, ledger.blocks.length) :: ledger.places })

def propose? (H : DigestFunction) (maxExponent : Nat) (now : Int64) :
    Guarded (Option Proposal × IndexedLedger) := do
  match ledger.blocks.getLast? with
  | some block =>
    if block.isFinalized then ledger.extend? H maxExponent now (some block)
    else
      let transactions ← Guarded.step (ledger.inBlock? block)
      return (some (block.proposal transactions), ledger)
  | none => ledger.extend? H maxExponent now none

def finalize? (name : Digest) (publication : Publication) : Guarded IndexedLedger := do
  match ledger.places.lookup name with
  | none => throw (.notPending name)
  | some place =>
    let block ← Guarded.step ledger.blocks[place]?
    if block.isFinalized then throw (.notPending name)
    let published := { block with publication := some publication }
    return { ledger with blocks := ledger.blocks.set place published }

instance : Ledger.Checked IndexedLedger where
  store ledger transaction := Guarded.certain (ledger.store transaction)
  stream ledger id := Guarded.step (ledger.stream? id)
  page ledger skip take withTransactions :=
    Guarded.step (ledger.page? skip take withTransactions)
  transactionsOf := transactionsOf?
  propose H maxExponent now ledger := ledger.propose? H maxExponent now
  finalize := finalize?

end

end IndexedLedger

/-! ### The checked operations of a ledger in a table -/

namespace KeyedLedger

section

variable (ledger : KeyedLedger)

def nextIndex? (id : StreamId) : Guarded UInt64 := do
  match ledger.table.lastKeyUnder (Key.stream id) with
  | none => return 0
  | some key =>
    let last ← Guarded.certain (stored (Key.lastNumber key))
    Guarded.step (checkedAdd last 1)

def store? (transaction : Transaction) : Guarded KeyedLedger := do
  let expected ← ledger.nextIndex? transaction.stream
  if transaction.index ≠ expected then
    throw (.outOfOrder transaction.stream expected transaction.index)
  if ledger.table.contains (Key.transactionDigest transaction.digest) then
    throw (.duplicate transaction.digest)
  let position ← Guarded.certain ledger.size
  let count ← Guarded.step (checkedAdd position 1)
  return ⟨ledger.table.insertAll [
    (Key.transaction position, Transaction.format.encode transaction),
    (Key.transactionDigest transaction.digest, Format.word64.encode position),
    (Key.streamEntry transaction.stream transaction.index, Format.word64.encode position),
    (Key.transactionCount, Format.word64.encode count)]⟩

def extend? (H : DigestFunction) (maxExponent : Nat) (now : Int64) (previous : Option Block) :
    Guarded (Option Proposal × KeyedLedger) := do
  let first ← Guarded.step (Block.nextPosition? previous)
  let total ← Guarded.certain ledger.size
  if total ≤ first then return (none, ledger)
  let last ← Guarded.step (nextLast? first total maxExponent)
  let size := UInt64.ofNat (blockSize (total - first).toNat maxExponent)
  let batch ← Guarded.certain (ledger.slice first last)
  if UInt64.ofNat batch.length ≠ size then
    throw (.corrupted (.missingInRange size first last batch.length))
  let header ← Guarded.certain (Header.next H previous (batch.map (·.payload)) now)
  let block := Block.pending header first last
  return (some (block.proposal batch), ⟨ledger.table.insertAll [
    (Key.block last, Block.format.encode block),
    (Key.blockDigest (block.digest H), Format.word64.encode last)]⟩)

def propose? (H : DigestFunction) (maxExponent : Nat) (now : Int64) :
    Guarded (Option Proposal × KeyedLedger) := do
  match ← Guarded.certain (stored (ledger.table.readLastUnder Block.format Key.blockStem)) with
  | some block =>
    if block.isFinalized then ledger.extend? H maxExponent now (some block)
    else
      let transactions ← Guarded.certain (ledger.inBlock block)
      return (some (block.proposal transactions), ledger)
  | none => ledger.extend? H maxExponent now none

instance : Ledger.Checked KeyedLedger where
  store := store?
  stream ledger id := Guarded.certain (ledger.stream id)
  page ledger skip take withTransactions :=
    Guarded.certain (ledger.page skip take withTransactions)
  transactionsOf ledger block := Guarded.certain (ledger.transactionsOf block)
  propose H maxExponent now ledger := ledger.propose? H maxExponent now
  finalize ledger block publication := Guarded.certain (ledger.finalize block publication)

end

end KeyedLedger

/-! ### No step fails -/

theorem checkedAdd_eq {a b : UInt64} (small : a.toNat + b.toNat < 2 ^ 64) :
    checkedAdd a b = some (a + b) := if_pos small

theorem checkedSub_eq {a b : UInt64} (ordered : b ≤ a) : checkedSub a b = some (a - b) :=
  if_pos ordered

theorem checkedSlice_eq {α : Type} {list : List α} {first last : UInt64}
    (ordered : first.toNat ≤ last.toNat + 1) (within : last.toNat < list.length)
    (small : last.toNat + 1 < 2 ^ 64) :
    checkedSlice list first last =
      some ((list.drop first.toNat).take (last.toNat + 1 - first.toNat)) := by
  have stop : (last + 1).toNat = last.toNat + 1 := by
    rw [UInt64.toNat_add, UInt64.toNat_one, Nat.mod_eq_of_lt small]
  have range : first ≤ last + 1 ∧ (last + 1).toNat ≤ list.length :=
    ⟨UInt64.le_iff_toNat_le.mpr (stop ▸ ordered), stop ▸ within⟩
  rw [checkedSlice, checkedAdd_eq (by rwa [UInt64.toNat_one]), ← stop]
  exact if_pos range

/-- The end of the next block is found without leaving the range of the numbers. -/
theorem nextLast?_eq {first total : UInt64} (maxExponent : Nat) (waiting : first < total) :
    nextLast? first total maxExponent = some (nextLast first total maxExponent) := by
  obtain ⟨_, positive, within⟩ := nextLast_spec maxExponent waiting
  have totalLt := total.toNat_lt
  have available : (total - first).toNat = total.toNat - first.toNat :=
    UInt64.toNat_sub_of_le _ _ (UInt64.le_of_lt waiting)
  have sizeFits : blockSize (total.toNat - first.toNat) maxExponent < 2 ^ 64 := by omega
  have size : (UInt64.ofNat (blockSize (total.toNat - first.toNat) maxExponent)).toNat =
      blockSize (total.toNat - first.toNat) maxExponent := UInt64.toNat_ofNat_of_lt' sizeFits
  have stop := Nat.lt_of_le_of_lt within totalLt
  rw [← size] at positive stop
  rw [nextLast?, checkedSub_eq (UInt64.le_of_lt waiting)]
  simp only [Option.bind_eq_bind, Option.bind_some, available, checkedAdd_eq stop]
  rw [nextLast, available, checkedSub_eq]
  rw [UInt64.le_iff_toNat_le, UInt64.toNat_one, UInt64.toNat_add, Nat.mod_eq_of_lt stop]
  omega

namespace IndexedLedger

variable {H : DigestFunction} {ledger : IndexedLedger}

/-- A block lies within the ledger, and the position after it is a number. -/
theorem Sound.block_range (sound : ledger.Sound H) {block : Block}
    (member : block ∈ ledger.blocks) :
    block.first.toNat ≤ block.last.toNat ∧ block.last.toNat < ledger.transactions.length ∧
      block.last.toNat + 1 < 2 ^ 64 := by
  obtain ⟨_, ordered, before⟩ := sound.tiles.mem_bounds member
  have within := sound.covered_le
  have coveredLt : ledger.covered < 2 ^ 64 := UInt64.toNat_lt _
  omega

theorem Sound.size?_eq (sound : ledger.Sound H) {block : Block} (member : block ∈ ledger.blocks) :
    block.size? = some block.size := by
  obtain ⟨ordered, _, small⟩ := sound.block_range member
  have ordered := UInt64.le_iff_toNat_le.mpr ordered
  rw [Block.size?, checkedSub_eq ordered]
  refine checkedAdd_eq ?_
  rw [UInt64.toNat_sub_of_le _ _ ordered, UInt64.toNat_one]
  omega

theorem Sound.nextPosition?_eq (sound : ledger.Sound H) :
    Block.nextPosition? ledger.blocks.getLast? =
      some (Block.nextPosition ledger.blocks.getLast?) := by
  cases last : ledger.blocks.getLast? with
  | none => rfl
  | some block => exact checkedAdd_eq (sound.block_range (List.mem_of_getLast? last)).2.2

theorem Sound.inBlock?_eq (sound : ledger.Sound H) {block : Block}
    (member : block ∈ ledger.blocks) : ledger.inBlock? block = some (ledger.inBlock block) := by
  obtain ⟨ordered, within, small⟩ := sound.block_range member
  exact checkedSlice_eq (Nat.le_succ_of_le ordered) within small

theorem Sound.stream?_eq (sound : ledger.Sound H) (id : StreamId) :
    ledger.stream? id = some (ledger.stream id) := by
  refine mapM_eq_filterMap fun position member => ?_
  have standing := List.getElem?_eq_getElem (sound.lt_of_mem_positionsOf member)
  exact ⟨_, standing, standing⟩

theorem Sound.page?_eq (sound : ledger.Sound H) (skip take : Nat) (withTransactions : Bool) :
    ledger.page? skip take withTransactions = some (ledger.page skip take withTransactions) := by
  rw [page, ← List.filterMap_eq_map]
  refine mapM_eq_filterMap fun entry member => ⟨_, ?_, rfl⟩
  obtain ⟨block, place⟩ := entry
  have here := mem_of_mem_page member
  cases withTransactions with
  | false => rfl
  | true =>
    simp only [if_true, sound.inBlock?_eq here]
    rfl

/-- A block's name leads to a block of the ledger. -/
theorem Sound.mem_of_lookup (sound : ledger.Sound H) {name : Digest} {place : Nat}
    (found : ledger.places.lookup name = some place) :
    ∃ block ∈ ledger.blocks, ledger.blocks[place]? = some block := by
  obtain ⟨block, standing, _⟩ := sound.named name place found
  exact ⟨block, List.mem_of_getElem? standing, standing⟩

theorem Sound.transactionsOf?_eq (sound : ledger.Sound H) (name : Digest) :
    ledger.transactionsOf? name = .certain (ledger.transactionsOf name) := by
  rw [transactionsOf?, transactionsOf]
  cases found : ledger.places.lookup name with
  | none => rfl
  | some place =>
    obtain ⟨block, member, standing⟩ := sound.mem_of_lookup found
    simp only [standing, Option.bind_some, Guarded.step_some, Guarded.certain_ok_bind,
      sound.inBlock?_eq member]

/-- All the transactions of the next block are there. -/
theorem slice?_nextBatch (maxExponent : Nat)
    (waiting : Block.nextPosition ledger.blocks.getLast? <
      UInt64.ofNat ledger.transactions.length) :
    ledger.slice? (Block.nextPosition ledger.blocks.getLast?)
        (nextLast (Block.nextPosition ledger.blocks.getLast?)
          (UInt64.ofNat ledger.transactions.length) maxExponent) =
      some (ledger.slice (Block.nextPosition ledger.blocks.getLast?)
        (nextLast (Block.nextPosition ledger.blocks.getLast?)
          (UInt64.ofNat ledger.transactions.length) maxExponent)) := by
  obtain ⟨ends, positive, within⟩ := nextLast_spec maxExponent waiting
  have total := toNat_ofNat_le ledger.transactions.length
  have totalLt := (UInt64.ofNat ledger.transactions.length).toNat_lt
  exact checkedSlice_eq (by omega) (by omega) (by omega)

theorem Sound.extend?_eq (sound : ledger.Sound H) (maxExponent : Nat) (now : Int64) :
    ledger.extend? H maxExponent now ledger.blocks.getLast? =
      .certain (ledger.extend H maxExponent now ledger.blocks.getLast?) := by
  simp only [extend?, extend, sound.nextPosition?_eq, Guarded.step_some, Guarded.certain_ok_bind]
  split
  · rfl
  · rename_i waiting
    have waiting := UInt64.not_le.mp waiting
    simp only [nextLast?_eq maxExponent waiting, Guarded.step_some, Guarded.certain_ok_bind,
      slice?_nextBatch maxExponent waiting]
    rw [nextLast]
    split
    · rename_i error refused
      simp only [refused]
      rfl
    · rename_i header made
      simp only [made]
      rfl

theorem Sound.propose?_eq (sound : ledger.Sound H) (maxExponent : Nat) (now : Int64) :
    ledger.propose? H maxExponent now = .certain (ledger.propose H maxExponent now) := by
  have extension := sound.extend?_eq maxExponent now
  rw [propose?, propose]
  cases last : ledger.blocks.getLast? with
  | none =>
    rw [last] at extension
    exact extension
  | some block =>
    rw [last] at extension
    simp only [sound.inBlock?_eq (List.mem_of_getLast? last), Guarded.step_some,
      Guarded.certain_ok_bind]
    split
    · exact extension
    · rfl

theorem Sound.finalize?_eq (sound : ledger.Sound H) (name : Digest) (publication : Publication) :
    ledger.finalize? name publication = .certain (ledger.finalize name publication) := by
  rw [finalize?, finalize]
  cases found : ledger.places.lookup name with
  | none => rfl
  | some place =>
    obtain ⟨block, _, standing⟩ := sound.mem_of_lookup found
    simp only [standing, Guarded.step_some, Guarded.certain_ok_bind]
    split <;> rfl

theorem Sound.runChecked_eq (sound : ledger.Sound H) (operation : Ledger.Operation) :
    operation.runChecked H ledger = some (operation.run H ledger) := by
  cases operation with
  | store transaction => rfl
  | status name => rfl
  | stream id =>
    simp only [Ledger.Operation.runChecked, Ledger.Checked.stream, sound.stream?_eq]
    rfl
  | blockOf name => rfl
  | page skip take withTransactions =>
    simp only [Ledger.Operation.runChecked, Ledger.Checked.page, sound.page?_eq]
    rfl
  | transactionsOf name =>
    simp only [Ledger.Operation.runChecked, Ledger.Checked.transactionsOf, sound.transactionsOf?_eq]
    rfl
  | propose maxExponent now =>
    simp only [Ledger.Operation.runChecked, Ledger.Checked.propose, sound.propose?_eq]
    rfl
  | finalize name publication =>
    simp only [Ledger.Operation.runChecked, Ledger.Checked.finalize, sound.finalize?_eq]
    rfl
  | size => rfl

theorem Sound.runAllChecked_eq (sound : ledger.Sound H) (history : List Ledger.Operation) :
    Ledger.runAllChecked H ledger history = some (Ledger.runAll H ledger history) := by
  induction history generalizing ledger with
  | nil => rfl
  | cons operation rest inductionHypothesis =>
    simp only [Ledger.runAllChecked, sound.runChecked_eq, Option.bind_eq_bind, Option.bind_some,
      inductionHypothesis (sound.run operation)]
    rfl

end IndexedLedger

namespace KeyedLedger.Represents

variable {H : DigestFunction} {keyed : KeyedLedger} {indexed : IndexedLedger}

theorem nextIndex?_eq (represents : Represents keyed indexed) (sound : indexed.Sound H)
    (fits : indexed.Fits) (id : StreamId) :
    keyed.nextIndex? id = .certain (keyed.nextIndex id) := by
  have size := fits.size
  have atMost := length_positionsOf_le sound id
  rw [nextIndex?, nextIndex, represents.lastKeyUnder_stream sound fits]
  cases positions : indexed.positionsOf id with
  | nil => rfl
  | cons first rest =>
    rw [positions, List.length_cons] at atMost
    have last : (UInt64.ofNat rest.length).toNat = rest.length :=
      UInt64.toNat_ofNat_of_lt' (Nat.lt_of_lt_of_le atMost (Nat.le_of_lt size))
    have room : (UInt64.ofNat rest.length).toNat + (1 : UInt64).toNat < 2 ^ 64 := by
      rw [last, UInt64.toNat_one]
      omega
    rw [if_neg (List.cons_ne_nil _ _), List.length_cons, Nat.add_sub_cancel]
    simp only [Key.lastNumber_append_number, stored, Guarded.certain_ok_bind, checkedAdd_eq room]
    rfl

theorem store?_eq (represents : Represents keyed indexed) (sound : indexed.Sound H)
    (fits : indexed.Fits) (room : indexed.transactions.length + 1 < 2 ^ 64)
    (transaction : Transaction) :
    keyed.store? transaction = .certain (keyed.store transaction) := by
  have count : (UInt64.ofNat indexed.transactions.length).toNat + (1 : UInt64).toNat < 2 ^ 64 := by
    rw [UInt64.toNat_ofNat_of_lt' fits.size, UInt64.toNat_one]
    exact room
  simp only [store?, store, Guarded.certain_bind, Guarded.certain_pure, Guarded.certain_throw,
    apply_ite Guarded.certain, represents.nextIndex?_eq sound fits, represents.size_eq,
    Guarded.certain_ok_bind, Guarded.certain_error_bind, checkedAdd_eq count, Guarded.step_some,
    Guarded.pure_eq, Guarded.throw_eq]

theorem extend?_eq (represents : Represents keyed indexed) (sound : indexed.Sound H)
    (maxExponent : Nat) (now : Int64) :
    keyed.extend? H maxExponent now indexed.blocks.getLast? =
      .certain (keyed.extend H maxExponent now indexed.blocks.getLast?) := by
  simp only [extend?, extend, Guarded.certain_bind, Guarded.certain_pure, Guarded.certain_throw,
    apply_ite Guarded.certain, represents.size_eq, sound.nextPosition?_eq, Guarded.step_some,
    Guarded.certain_ok_bind, Guarded.certain_error_bind, Guarded.pure_eq, Guarded.throw_eq]
  split
  · rfl
  · rename_i waiting
    have waiting := UInt64.not_le.mp waiting
    simp only [nextLast?_eq maxExponent waiting, Guarded.step_some, Guarded.certain_ok_bind,
      nextLast]

theorem propose?_eq (represents : Represents keyed indexed) (sound : indexed.Sound H)
    (fits : indexed.Fits) (maxExponent : Nat) (now : Int64) :
    keyed.propose? H maxExponent now = .certain (keyed.propose H maxExponent now) := by
  have extension := represents.extend?_eq sound maxExponent now
  simp only [propose?, propose, Guarded.certain_bind, represents.last_eq sound fits,
    Guarded.certain_ok_bind]
  cases last : indexed.blocks.getLast? with
  | none =>
    rw [last] at extension
    exact extension
  | some block =>
    rw [last] at extension
    simp only [apply_ite Guarded.certain, extension, Guarded.certain_bind, Guarded.certain_pure,
      Guarded.pure_eq]

theorem runChecked_eq (represents : Represents keyed indexed) (sound : indexed.Sound H)
    (fits : indexed.Fits) (room : indexed.transactions.length + 1 < 2 ^ 64)
    (operation : Ledger.Operation) :
    operation.runChecked H keyed = some (operation.run H keyed) := by
  cases operation with
  | store transaction =>
    simp only [Ledger.Operation.runChecked, Ledger.Checked.store,
      represents.store?_eq sound fits room]
    rfl
  | propose maxExponent now =>
    simp only [Ledger.Operation.runChecked, Ledger.Checked.propose,
      represents.propose?_eq sound fits]
    rfl
  | _ => rfl

theorem runAllChecked_eq (represents : Represents keyed indexed) (sound : indexed.Sound H)
    (fits : indexed.Fits) {history : List Ledger.Operation}
    (operationsFit : ∀ operation ∈ history, operation.Fits)
    (small : (Ledger.runAll H indexed history).2.transactions.length + 1 < 2 ^ 64) :
    Ledger.runAllChecked H keyed history = some (Ledger.runAll H keyed history) := by
  induction history generalizing keyed indexed with
  | nil => rfl
  | cons operation rest inductionHypothesis =>
    have soundAfter := sound.run operation
    have before := sound.length_le_run operation
    have after : (operation.run H indexed).2.transactions.length + 1 < 2 ^ 64 :=
      Nat.lt_of_le_of_lt (Nat.succ_le_succ (soundAfter.length_le_runAll rest)) small
    have fitsAfter := fits.run sound (operationsFit operation List.mem_cons_self) (by omega)
    have rest := inductionHypothesis (represents.run sound fits operation).2 soundAfter fitsAfter
      (fun other member => operationsFit other (List.mem_cons_of_mem _ member)) small
    simp only [Ledger.runAllChecked, represents.runChecked_eq sound fits (by omega) operation,
      Option.bind_eq_bind, Option.bind_some, rest]
    rfl

end KeyedLedger.Represents

/-! ### What may be refused -/

namespace Ledger

/-- The refusals that an operation is known for. -/
inductive Operation.Refuses : Operation → LedgerError → Prop
  | outOfOrder (transaction : Transaction) (expected : UInt64) :
      Refuses (.store transaction) (.outOfOrder transaction.stream expected transaction.index)
  | duplicate (transaction : Transaction) :
      Refuses (.store transaction) (.duplicate transaction.digest)
  | notPending (name : Digest) (publication : Publication) :
      Refuses (.finalize name publication) (.notPending name)
  | unknownBlock (name : Digest) : Refuses (.transactionsOf name) (.unknownBlock name)

end Ledger

namespace IndexedLedger

variable {H : DigestFunction} {ledger : IndexedLedger}

theorem refuses_of_run {operation : Ledger.Operation} {error : LedgerError}
    (refused : (operation.run H ledger).1 = .refused error) : operation.Refuses error := by
  cases operation with
  | store transaction =>
    simp only [Ledger.Operation.run, Ledger.store, store] at refused
    split at refused
    · cases refused
      exact .outOfOrder transaction _
    · split at refused
      · cases refused
        exact .duplicate transaction
      · cases refused
  | transactionsOf name =>
    simp only [Ledger.Operation.run, Ledger.transactionsOf, transactionsOf] at refused
    split at refused
    · cases refused
    · cases refused
      exact .unknownBlock name
  | propose maxExponent now =>
    obtain ⟨result, answered⟩ := exists_propose (H := H) ledger maxExponent now
    simp only [Ledger.Operation.run, Ledger.propose, answered] at refused
    cases refused
  | finalize name publication =>
    simp only [Ledger.Operation.run, Ledger.finalize, finalize] at refused
    split at refused
    · cases refused
      exact .notPending name publication
    · split at refused
      · cases refused
        exact .notPending name publication
      · split at refused
        · cases refused
          exact .notPending name publication
        · cases refused
  | _ => cases refused

/-- Every refusal of a history is one that its operation is known for. -/
theorem refuses_of_runAll {history : List Ledger.Operation} {operation : Ledger.Operation}
    {error : LedgerError}
    (refused : (operation, .refused error) ∈ history.zip (Ledger.runAll H ledger history).1) :
    operation.Refuses error := by
  induction history generalizing ledger with
  | nil => cases refused
  | cons first rest inductionHypothesis =>
    rcases List.mem_cons.mp refused with here | later
    · obtain ⟨rfl, answered⟩ := Prod.mk.inj here
      exact refuses_of_run answered.symm
    · exact inductionHypothesis later

end IndexedLedger

namespace Ledger

section

variable {L : Type} [Ledger L]

/-- A ledger shows a block, as that of a transaction or in its chain. -/
def Shows (ledger : L) (block : Block) : Prop :=
  (∃ name, Ledger.blockOf ledger name = .ok (some block)) ∨
    ∃ skip take withTransactions entries,
      Ledger.page ledger skip take withTransactions = .ok entries ∧
        block ∈ entries.map (·.block)

/-- Nothing goes wrong inside a ledger while a history runs: no access to a list fails, no sum and
no difference leaves the range of the numbers, and the caller brings about each refusal. -/
structure Unfailing [Checked L] (H : DigestFunction) (start : L) (history : List Operation) :
    Prop where
  checked : runAllChecked H start history = some (runAll H start history)
  refusals : ∀ operation error,
    (operation, Answer.refused error) ∈ history.zip (runAll H start history).1 →
      operation.Refuses error
  /-- The number of transactions of each block that is shown can be computed. -/
  sizes : ∀ block, Shows (runAll H start history).2 block → block.size? = some block.size

/-- Only blocks of the ledger are shown. -/
theorem Window.size?_eq {H : DigestFunction} (window : Window H L) {ledger : L}
    {indexed : IndexedLedger} (seen : window.Sees ledger indexed) {block : Block}
    (shown : Shows ledger block) : block.size? = some block.size := by
  have sound := window.sound seen
  refine sound.size?_eq ?_
  rcases shown with ⟨name, found⟩ | ⟨skip, take, withTransactions, entries, listed, member⟩
  · rw [window.blockOf_eq seen] at found
    obtain ⟨position, _, covers⟩ := Option.bind_eq_some_iff.mp (Except.ok.inj found)
    exact (sound.covering_eq_some_iff_contains.mp covers).1
  · rw [window.page_eq seen] at listed
    obtain rfl := Except.ok.inj listed
    obtain ⟨entry, entryMember, rfl⟩ := List.mem_map.mp member
    obtain ⟨⟨other, place⟩, standing, rfl⟩ := List.mem_map.mp entryMember
    exact IndexedLedger.mem_of_mem_page standing

end

/-- Whatever is asked of a ledger in memory that starts empty, nothing goes wrong inside it, and so
it is with a ledger in a table, as long as positions and lengths fit into eight bytes. -/
theorem unfailing_of_empty (H : DigestFunction) (history : List Operation) :
    Unfailing H IndexedLedger.empty history ∧
      ((∀ operation ∈ history, operation.Fits) →
        (accepted H IndexedLedger.empty history).length < 2 ^ 64 - 1 →
        Unfailing H KeyedLedger.empty history) := by
  have sound := IndexedLedger.sound_empty H
  rw [← transactions_of_empty]
  constructor
  · exact ⟨sound.runAllChecked_eq history, fun _ _ => IndexedLedger.refuses_of_runAll,
      fun _ => (IndexedLedger.window H).size?_eq (sees_indexed_runAll history)⟩
  · intro operationsFit small
    have small : (runAll H IndexedLedger.empty history).2.transactions.length + 1 < 2 ^ 64 := by
      omega
    have answers := (KeyedLedger.represents_runAll (List.prefix_refl _) operationsFit
      (Nat.lt_of_succ_lt small)).1
    refine ⟨KeyedLedger.represents_empty.runAllChecked_eq sound IndexedLedger.fits_empty
      operationsFit small, fun operation error refused => ?_,
      fun _ => (KeyedLedger.window H).size?_eq
        (sees_keyed_runAll operationsFit (Nat.lt_of_succ_lt small)).1⟩
    rw [answers] at refused
    exact IndexedLedger.refuses_of_runAll refused

/-- Two refusals among a block, its publication and the next block. -/
theorem unfailing_of_empty_refused :
    let H : DigestFunction := fun bytes => ⟨UInt8.ofNat bytes.length :: List.replicate 31 0, rfl⟩
    let name := Header.digest H ⟨Digest.zero, Digest.zero, H [1], 0⟩
    let history : List Operation := [
      .store ⟨H [1], .zero 16, 0, [1]⟩, .store ⟨H [1], .zero 16, 1, [1]⟩, .propose 0 0,
      .transactionsOf Digest.zero, .finalize name (.logEntry name),
      .store ⟨H [2, 2], .zero 16, 1, [2, 2]⟩, .propose 70 20]
    (runAll H KeyedLedger.empty history).1[1]? = some (.refused (.duplicate (H [1]))) ∧
      (runAll H KeyedLedger.empty history).1[3]? = some (.refused (.unknownBlock Digest.zero)) ∧
      Unfailing H KeyedLedger.empty history := by
  intro H name history
  refine ⟨by decide +kernel, by decide +kernel,
    (unfailing_of_empty H history).2 ?_ (by decide +kernel)⟩
  simp [history, Operation.Fits, Transaction.Fits, Publication.Fits]

end Ledger

end StreamLedger
