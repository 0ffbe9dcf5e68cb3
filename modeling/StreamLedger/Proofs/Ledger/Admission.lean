/-
This file says which transactions a ledger admits. What a ledger shows of its transactions hangs on
one list, in which they stand in the order of arrival: a stream is the part of it with the stream's
name. The list alone decides about the next transaction, which has to be the next of its stream, and
new. If it is admitted it comes at the end of the list, and nothing else changes. So the places in a
stream are counted without a gap, and no digest comes twice.
-/
import StreamLedger.Proofs.Ledger.Permanence

namespace StreamLedger

/-- The transactions of one stream, in their order. -/
def Transaction.ofStream (id : StreamId) (transactions : List Transaction) : List Transaction :=
  transactions.filter fun transaction => transaction.stream == id

/-- The place that comes next in a stream, which is the number of its transactions. -/
def Transaction.nextIndex (id : StreamId) (transactions : List Transaction) : UInt64 :=
  UInt64.ofNat (ofStream id transactions).length

theorem Transaction.ofStream_append_singleton (id : StreamId) (transactions : List Transaction)
    (transaction : Transaction) :
    ofStream id (transactions ++ [transaction]) =
      ofStream id transactions ++ if transaction.stream = id then [transaction] else [] := by
  rw [ofStream, List.filter_append, ← ofStream]
  by_cases same : transaction.stream = id
  · rw [if_pos same, List.filter_cons_of_pos (by simp [same]), List.filter_nil]
  · rw [if_neg same, List.filter_cons_of_neg (by simp [same]), List.filter_nil]

/-! ### The ledger in memory -/

namespace IndexedLedger

variable {H : DigestFunction} {ledger changed : IndexedLedger}

/-- A list is what stands at its places, one after the other. -/
theorem filterMap_range_getElem? {α : Type} (list : List α) :
    (List.range list.length).filterMap (list[·]?) = list := by
  induction list using List.reverseRecOn with
  | nil => rfl
  | append_singleton earlier last inductionHypothesis =>
    have before : (List.range earlier.length).filterMap ((earlier ++ [last])[·]?) = earlier := by
      refine Eq.trans (List.filterMap_congr fun place member => ?_) inductionHypothesis
      exact List.getElem?_append_left (List.mem_range.mp member)
    rw [List.length_append, List.length_singleton, List.range_succ, List.filterMap_append, before]
    simp

theorem Sound.stream_eq_ofStream (sound : ledger.Sound H) (id : StreamId) :
    ledger.stream id = Transaction.ofStream id ledger.transactions := by
  have whole := congrArg (Transaction.ofStream id) (filterMap_range_getElem? ledger.transactions)
  rw [← whole, stream, sound.streams, positionsIn, Transaction.ofStream, List.filter_filterMap,
    List.filterMap_filter]
  refine List.filterMap_congr fun position member => ?_
  rw [List.getElem?_eq_getElem (List.mem_range.mp member)]
  simp [Option.filter]

theorem Sound.length_positionsOf (sound : ledger.Sound H) (id : StreamId) :
    (ledger.positionsOf id).length = (Transaction.ofStream id ledger.transactions).length := by
  rw [← sound.stream_eq_ofStream, stream]
  refine (List.filterMap_length_eq_length.mpr fun position member => ?_).symm
  rw [List.getElem?_eq_getElem (sound.lt_of_mem_positionsOf member)]
  rfl

theorem Sound.isSome_lookup_iff (sound : ledger.Sound H) (name : Digest) :
    (ledger.positions.lookup name).isSome = true ↔ name ∈ ledger.transactions.map (·.digest) := by
  rw [Option.isSome_iff_exists, List.mem_iff_getElem?]
  refine exists_congr fun position => ?_
  rw [sound.positions, List.getElem?_map]

/-- No two transactions have the same digest. -/
theorem Sound.nodup_digests (sound : ledger.Sound H) :
    (ledger.transactions.map (·.digest)).Nodup := by
  refine List.pairwise_iff_getElem.mpr fun first second firstBound secondBound before same => ?_
  rw [List.length_map] at firstBound secondBound
  rw [List.getElem_map, List.getElem_map] at same
  have here := (sound.positions ledger.transactions[first].digest first).mpr
    (congrArg (Option.map _) (List.getElem?_eq_getElem firstBound))
  have there := (sound.positions ledger.transactions[second].digest second).mpr
    (congrArg (Option.map _) (List.getElem?_eq_getElem secondBound))
  rw [← same, here] at there
  exact Nat.ne_of_lt before (Option.some.inj there)

/-- What a ledger admits hangs on the list of its transactions. -/
theorem Sound.store_eq (sound : ledger.Sound H) (transaction : Transaction) :
    ledger.store transaction =
      if transaction.index = Transaction.nextIndex transaction.stream ledger.transactions then
        if transaction.digest ∈ ledger.transactions.map (·.digest) then
          .error (.duplicate transaction.digest)
        else .ok (ledger.appended transaction)
      else
        .error (.outOfOrder transaction.stream
          (Transaction.nextIndex transaction.stream ledger.transactions) transaction.index) := by
  simp only [store, sound.length_positionsOf, sound.isSome_lookup_iff, ite_not]
  rfl

theorem Sound.store_eq_outOfOrder_iff (sound : ledger.Sound H) (transaction : Transaction)
    (stream : StreamId) (expected actual : UInt64) :
    ledger.store transaction = .error (.outOfOrder stream expected actual) ↔
      actual ≠ expected ∧ stream = transaction.stream ∧
        expected = Transaction.nextIndex transaction.stream ledger.transactions ∧
        actual = transaction.index := by
  rw [sound.store_eq]
  split
  · rename_i inOrder
    have accepted : ¬ (actual ≠ expected ∧ stream = transaction.stream ∧
        expected = Transaction.nextIndex transaction.stream ledger.transactions ∧
        actual = transaction.index) := by
      rintro ⟨differ, _, rfl, rfl⟩
      exact differ inOrder
    refine iff_of_false ?_ accepted
    split <;> exact nofun
  · rename_i differ
    constructor
    · intro refused
      cases refused
      exact ⟨differ, rfl, rfl, rfl⟩
    · rintro ⟨_, rfl, rfl, rfl⟩
      rfl

theorem Sound.store_eq_duplicate_iff (sound : ledger.Sound H) (transaction : Transaction)
    (name : Digest) :
    ledger.store transaction = .error (.duplicate name) ↔
      transaction.index = Transaction.nextIndex transaction.stream ledger.transactions ∧
        name = transaction.digest ∧ name ∈ ledger.transactions.map (·.digest) := by
  rw [sound.store_eq]
  split
  · rename_i inOrder
    split
    · rename_i known
      constructor
      · intro refused
        cases refused
        exact ⟨inOrder, rfl, known⟩
      · rintro ⟨_, rfl, _⟩
        rfl
    · rename_i fresh
      refine iff_of_false nofun ?_
      rintro ⟨_, rfl, known⟩
      exact fresh known
  · rename_i differ
    exact iff_of_false nofun fun ⟨inOrder, _⟩ => differ inOrder

theorem Sound.exists_store_eq_ok_iff (sound : ledger.Sound H) (transaction : Transaction) :
    (∃ changed, ledger.store transaction = .ok changed) ↔
      transaction.index = Transaction.nextIndex transaction.stream ledger.transactions ∧
        transaction.digest ∉ ledger.transactions.map (·.digest) := by
  rw [sound.store_eq]
  split
  · rename_i inOrder
    split
    · rename_i known
      exact iff_of_false nofun fun ⟨_, fresh⟩ => fresh known
    · rename_i fresh
      exact iff_of_true ⟨_, rfl⟩ ⟨inOrder, fresh⟩
  · rename_i differ
    exact iff_of_false nofun fun ⟨inOrder, _⟩ => differ inOrder

/-- In each stream the places are counted from 0 on. -/
def Counted (ledger : IndexedLedger) : Prop :=
  ∀ id, (Transaction.ofStream id ledger.transactions).map (·.index) =
    (List.range (Transaction.ofStream id ledger.transactions).length).map UInt64.ofNat

theorem counted_empty : Counted empty := fun _ => rfl

theorem Counted.run (counted : ledger.Counted) (sound : ledger.Sound H)
    (operation : Ledger.Operation) : (operation.run H ledger).2.Counted := by
  have step := sound.advances operation
  generalize (operation.run H ledger).2 = changed at step ⊢
  cases step with
  | kept => exact counted
  | extended settled waiting made => exact counted
  | finalized whole pending digest => exact counted
  | @appended transaction inOrder fresh =>
    intro id
    show (Transaction.ofStream id (ledger.transactions ++ [transaction])).map (·.index) =
      (List.range (Transaction.ofStream id (ledger.transactions ++ [transaction])).length).map _
    rw [Transaction.ofStream_append_singleton]
    split
    · rename_i same
      rw [sound.length_positionsOf, same] at inOrder
      rw [List.map_append, List.length_append, List.length_singleton, List.range_succ,
        List.map_append, counted id, List.map_singleton, List.map_singleton, inOrder]
    · rw [List.append_nil]
      exact counted id

theorem Counted.runAll (counted : ledger.Counted) (sound : ledger.Sound H)
    (history : List Ledger.Operation) : (Ledger.runAll H ledger history).2.Counted := by
  induction history generalizing ledger with
  | nil => exact counted
  | cons operation rest inductionHypothesis =>
    exact inductionHypothesis (counted.run sound operation) (sound.run operation)

/-! ### What a new transaction leaves alone -/

theorem Sound.page_appended (sound : ledger.Sound H) (transaction : Transaction) (skip take : Nat)
    (withTransactions : Bool) :
    (ledger.appended transaction).page skip take withTransactions =
      ledger.page skip take withTransactions := by
  refine List.map_congr_left fun entry member => ?_
  obtain ⟨block, place⟩ := entry
  simp only [sound.inBlock_appended transaction (mem_of_mem_page member)]

theorem Sound.transactionsOf_appended (sound : ledger.Sound H) (transaction : Transaction)
    (name : Digest) :
    (ledger.appended transaction).transactionsOf name = ledger.transactionsOf name := by
  have places : ((ledger.appended transaction).places.lookup name).bind
      ((ledger.appended transaction).blocks[·]?) =
        (ledger.places.lookup name).bind (ledger.blocks[·]?) := rfl
  rw [transactionsOf, transactionsOf, places]
  cases found : (ledger.places.lookup name).bind (ledger.blocks[·]?) with
  | none => rfl
  | some block =>
    obtain ⟨place, _, standing⟩ := Option.bind_eq_some_iff.mp found
    simp only [sound.inBlock_appended transaction (List.mem_of_getElem? standing)]

/-- The digests of other transactions lead where they led. -/
theorem lookup_positions_appended (transaction : Transaction) {name : Digest}
    (other : name ≠ transaction.digest) :
    (ledger.appended transaction).positions.lookup name = ledger.positions.lookup name :=
  (lookup_cons_eq_ite name _ _).trans (if_neg other)

theorem blockOf_appended (transaction : Transaction) {name : Digest}
    (other : name ≠ transaction.digest) :
    (ledger.appended transaction).blockOf name = ledger.blockOf name :=
  congrArg (Option.bind · ledger.covering) (lookup_positions_appended transaction other)

theorem status_appended_of_ne (transaction : Transaction) {name : Digest}
    (other : name ≠ transaction.digest) :
    (ledger.appended transaction).status name = ledger.status name := by
  simp only [status, lookup_positions_appended transaction other]
  rfl

theorem Sound.blockOf_appended_self (sound : ledger.Sound H) (transaction : Transaction)
    (small : ledger.transactions.length < 2 ^ 64) :
    (ledger.appended transaction).blockOf transaction.digest = none := by
  have found : (ledger.appended transaction).positions.lookup transaction.digest =
      some ledger.transactions.length := (lookup_cons_eq_ite _ _ _).trans (if_pos rfl)
  rw [blockOf, found]
  exact sound.covering_length small

end IndexedLedger

/-! ### Both kinds of ledgers -/

section

variable {α β : Type} {related : α → β → Prop} {a : Except LedgerError α} {b : Except LedgerError β}

theorem Agree.eq_error_iff (agree : Agree related a b) (error : LedgerError) :
    a = .error error ↔ b = .error error := by
  cases agree with
  | refused error => exact ⟨fun same => by cases same; rfl, fun same => by cases same; rfl⟩
  | done same => exact ⟨nofun, nofun⟩

theorem Agree.exists_eq_ok_iff (agree : Agree related a b) :
    (∃ value, a = .ok value) ↔ ∃ value, b = .ok value := by
  cases agree with
  | refused error => exact ⟨nofun, nofun⟩
  | done same => exact ⟨fun _ => ⟨_, rfl⟩, fun _ => ⟨_, rfl⟩⟩

end

namespace Ledger

/-- Ledgers in which the transaction at a position can be looked up. -/
class Placed (L : Type) where
  transactionAt? : L → UInt64 → Except LedgerError (Option Transaction)

instance : Placed IndexedLedger where
  transactionAt? ledger position := .ok ledger.transactions[position.toNat]?

instance : Placed KeyedLedger where
  transactionAt? ledger position := ledger.read Transaction.format (Key.transaction position)

section

variable {L : Type} [Ledger L] [Placed L] {H : DigestFunction}

/-- A ledger holds transactions, in this order. -/
structure Holds (ledger : L) (stored : List Transaction) : Prop where
  size : Ledger.size ledger = .ok (UInt64.ofNat stored.length)
  positions : ∀ position, Placed.transactionAt? ledger position = .ok stored[position.toNat]?
  streams : ∀ id, Ledger.stream ledger id = .ok (Transaction.ofStream id stored)

/-- A ledger has become another by one more transaction: it is the last of all and the last of its
stream. No other stream changes, no block does, and no other transaction has another status. -/
structure Gains (ledger changed : L) (stored : List Transaction) (transaction : Transaction) :
    Prop where
  holds : Holds changed (stored ++ [transaction])
  stream : Ledger.stream changed transaction.stream =
    .ok (Transaction.ofStream transaction.stream stored ++ [transaction])
  otherStreams : ∀ id ≠ transaction.stream, Ledger.stream changed id = Ledger.stream ledger id
  page : ∀ skip take withTransactions,
    Ledger.page changed skip take withTransactions = Ledger.page ledger skip take withTransactions
  transactionsOf : ∀ name, Ledger.transactionsOf changed name = Ledger.transactionsOf ledger name
  blockOf : ∀ name ≠ transaction.digest, Ledger.blockOf changed name = Ledger.blockOf ledger name
  status : ∀ name ≠ transaction.digest, Ledger.status changed name = Ledger.status ledger name
  committed : stored.length < 2 ^ 64 →
    Ledger.status changed transaction.digest = .ok .committed ∧
      Ledger.blockOf changed transaction.digest = .ok none

/-- What a ledger that holds `stored` does with a transaction. -/
structure Admits (H : DigestFunction) (ledger : L) (stored : List Transaction)
    (transaction : Transaction) : Prop where
  holds : Holds ledger stored
  /-- In each stream the places are counted from 0 on. -/
  counted : ∀ id, (Transaction.ofStream id stored).map (·.index) =
    (List.range (Transaction.ofStream id stored).length).map UInt64.ofNat
  distinct : (stored.map (·.digest)).Nodup
  outOfOrder_iff : ∀ stream expected actual,
    Ledger.store ledger transaction = .error (.outOfOrder stream expected actual) ↔
      actual ≠ expected ∧ stream = transaction.stream ∧
        expected = Transaction.nextIndex transaction.stream stored ∧
        actual = transaction.index
  duplicate_iff : ∀ name, Ledger.store ledger transaction = .error (.duplicate name) ↔
    transaction.index = Transaction.nextIndex transaction.stream stored ∧
      name = transaction.digest ∧ name ∈ stored.map (·.digest)
  accepted_iff : (∃ changed, Ledger.store ledger transaction = .ok changed) ↔
    transaction.index = Transaction.nextIndex transaction.stream stored ∧
      transaction.digest ∉ stored.map (·.digest)
  /-- A refusal cannot be noticed later. -/
  rejected : ∀ error, Ledger.store ledger transaction = .error error → ∀ later,
    runAll H ((Operation.store transaction).run H ledger).2 later = runAll H ledger later
  gains : ∀ changed, Ledger.store ledger transaction = .ok changed →
    Gains ledger changed stored transaction

/-- A window through which the transaction at each position is seen. -/
structure Panorama (H : DigestFunction) (L : Type) [Ledger L] [Placed L] extends Window H L where
  transactionAt?_eq : ∀ {ledger indexed}, Sees ledger indexed → ∀ position,
    Placed.transactionAt? ledger position = .ok indexed.transactions[position.toNat]?

namespace Panorama

variable {panorama : Panorama H L} {ledger changed : L} {indexed : IndexedLedger}

theorem holds (panorama : Panorama H L) (seen : panorama.Sees ledger indexed) :
    Holds ledger indexed.transactions where
  size := panorama.size_eq seen
  positions := panorama.transactionAt?_eq seen
  streams id := by rw [panorama.stream_eq seen, (panorama.sound seen).stream_eq_ofStream]

theorem gains (panorama : Panorama H L) {transaction : Transaction}
    (seen : panorama.Sees ledger indexed)
    (seenChanged : panorama.Sees changed (indexed.appended transaction)) :
    Gains ledger changed indexed.transactions transaction where
  holds := panorama.holds seenChanged
  stream := by
    rw [panorama.stream_eq seenChanged, (panorama.sound seen).stream_appended, if_pos rfl,
      (panorama.sound seen).stream_eq_ofStream]
  otherStreams id other := by
    rw [panorama.stream_eq seenChanged, panorama.stream_eq seen,
      (panorama.sound seen).stream_appended, if_neg other, List.append_nil]
  page skip take withTransactions := by
    rw [panorama.page_eq seenChanged, panorama.page_eq seen, (panorama.sound seen).page_appended]
  transactionsOf name := by
    rw [panorama.transactionsOf_eq seenChanged, panorama.transactionsOf_eq seen,
      (panorama.sound seen).transactionsOf_appended]
  blockOf name other := by
    rw [panorama.blockOf_eq seenChanged, panorama.blockOf_eq seen,
      IndexedLedger.blockOf_appended transaction other]
  status name other := by
    rw [panorama.status_eq seenChanged, panorama.status_eq seen,
      IndexedLedger.status_appended_of_ne transaction other]
  committed small := by
    have status := (panorama.sound seen).status_appended transaction small transaction.digest
    rw [if_pos rfl] at status
    refine ⟨(panorama.status_eq seenChanged _).trans (congrArg Except.ok status), ?_⟩
    rw [panorama.blockOf_eq seenChanged, (panorama.sound seen).blockOf_appended_self _ small]

/-- What the ledger in memory admits is admitted by the ledger that is seen as it. -/
theorem admits (panorama : Panorama H L) {transaction : Transaction}
    (seen : panorama.Sees ledger indexed) (counted : indexed.Counted)
    (agree : Agree panorama.Sees (Ledger.store ledger transaction) (indexed.store transaction)) :
    Admits H ledger indexed.transactions transaction where
  holds := panorama.holds seen
  counted := counted
  distinct := (panorama.sound seen).nodup_digests
  outOfOrder_iff stream expected actual := by
    rw [agree.eq_error_iff, (panorama.sound seen).store_eq_outOfOrder_iff]
  duplicate_iff name := by
    rw [agree.eq_error_iff, (panorama.sound seen).store_eq_duplicate_iff]
  accepted_iff := by
    rw [agree.exists_eq_ok_iff, (panorama.sound seen).exists_store_eq_ok_iff]
  rejected error refused later := by
    rw [Operation.run, refused]
    rfl
  gains changed accepted := by
    rw [accepted] at agree
    generalize stored : indexed.store transaction = result at agree
    cases agree with
    | done seenChanged =>
      obtain ⟨_, _, rfl⟩ := IndexedLedger.of_store_eq_ok stored
      exact panorama.gains seen seenChanged

end Panorama

end

end Ledger

section

variable (H : DigestFunction)

def IndexedLedger.panorama : Ledger.Panorama H IndexedLedger where
  toWindow := IndexedLedger.window H
  transactionAt?_eq seen position := by rw [seen.1]; rfl

def KeyedLedger.panorama : Ledger.Panorama H KeyedLedger where
  toWindow := KeyedLedger.window H
  transactionAt?_eq seen position :=
    seen.1.read_eq Transaction.format (.transaction position) rfl fun present standing =>
      Transaction.format_returns
        (seen.2.2.transactions present (List.mem_of_getElem? standing))

namespace Ledger

/-- After any history that started empty, a ledger in memory admits a transaction that is the next
of its stream and new, and nothing else, and so does a ledger in a table, as long as positions and
lengths fit into eight bytes. -/
theorem admits_of_empty (history : List Operation) (transaction : Transaction) :
    Admits H (runAll H IndexedLedger.empty history).2 (accepted H IndexedLedger.empty history)
        transaction ∧
      ((∀ operation ∈ .store transaction :: history, operation.Fits) →
        (accepted H IndexedLedger.empty history).length < 2 ^ 64 - 1 →
        Admits H (runAll H KeyedLedger.empty history).2 (accepted H KeyedLedger.empty history)
          transaction) := by
  have sound := (IndexedLedger.sound_empty H).runAll history
  have counted := IndexedLedger.counted_empty.runAll (IndexedLedger.sound_empty H) history
  rw [← transactions_of_empty]
  constructor
  · exact (IndexedLedger.panorama H).admits (sees_indexed_runAll history) counted
      (Agree.of_eq _ fun changed stored => ⟨rfl, sound.of_store stored⟩)
  · intro operationsFit small
    obtain ⟨transactionFits, historyFits⟩ := List.forall_mem_cons.mp operationsFit
    have here : (runAll H IndexedLedger.empty history).2.transactions.length < 2 ^ 64 := by omega
    obtain ⟨seen, same⟩ := sees_keyed_runAll historyFits here
    rw [same, ← transactions_of_empty]
    refine (KeyedLedger.panorama H).admits seen counted ?_
    refine ((KeyedLedger.window H).store_agrees seen transaction).imp
      fun keyed changed stored after => after transactionFits ?_
    obtain ⟨_, _, rfl⟩ := IndexedLedger.of_store_eq_ok stored
    show (_ ++ [transaction]).length < _
    rw [List.length_append, List.length_singleton]
    omega

/-- The second transaction of one stream, after the first and one of another stream. -/
theorem admits_of_empty_twoStreams :
    let H : DigestFunction := fun bytes => ⟨UInt8.ofNat bytes.length :: List.replicate 31 0, rfl⟩
    let first : Transaction := ⟨H [1], .zero 16, 0, [1]⟩
    let second : Transaction := ⟨H [2, 2], .zero 16, 1, [2, 2]⟩
    let other : Transaction := ⟨H [3, 3, 3], ⟨List.replicate 16 1, rfl⟩, 0, [3, 3, 3]⟩
    let history : List Operation := [.store first, .propose 0 0, .store first, .store other]
    accepted H KeyedLedger.empty history = [first, other] ∧
      Admits H (runAll H KeyedLedger.empty history).2 (accepted H KeyedLedger.empty history)
        second := by
  intro H first second other history
  refine ⟨by decide +kernel, (admits_of_empty H history second).2 ?_ (by decide +kernel)⟩
  simp [history, first, second, other, Operation.Fits, Transaction.Fits]

end Ledger

end

end StreamLedger
