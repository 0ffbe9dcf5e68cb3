/-
This file holds the lookup of a transaction's block against a walk along the chain. A transaction
has a place in the order of arrival, and its block is the first of the listed blocks that contains
this place, as the walk from the first block on finds it. Since the blocks lie end to end from the
first place on, the walk finds none only for a place beyond the last block. Neither kind of ledger
walks: one halves its list of blocks, the other goes to the next key of its table.
-/
import StreamLedger.Proofs.Ledger.Window

namespace StreamLedger

/-! ### What a walk finds -/

/-- The place of a transaction in the order of arrival. -/
def Transaction.placeOf (name : Digest) (transactions : List Transaction) : Option Nat :=
  transactions.findIdx? fun transaction => transaction.digest == name

namespace Ledger

/-- The first block of a chain, from its beginning on, that contains a place. -/
def scan (entries : List BlockEntry) (place : Nat) : Option Block :=
  (entries.map (·.block)).find? fun block => block.contains (UInt64.ofNat place)

/-- A place comes after all blocks of a chain. -/
def IsBeyond (entries : List BlockEntry) (place : Nat) : Prop :=
  ∀ entry ∈ entries.getLast?, entry.block.last < UInt64.ofNat place

/-- The status of a transaction, judging by its place and by what the walk finds there. -/
def scannedStatus (transactions : List Transaction) (entries : List BlockEntry) (name : Digest) :
    Status :=
  match Transaction.placeOf name transactions with
  | none => .unknown
  | some place =>
    if (scan entries place).any (·.isFinalized) then .finalized else .committed

/-- A ledger answers for each transaction what the walk along its chain says. -/
structure AgreesWithScan {L : Type} [Ledger L] (ledger : L) (transactions : List Transaction)
    (entries : List BlockEntry) : Prop where
  lists : Lists ledger entries
  blockOf : ∀ name,
    Ledger.blockOf ledger name = .ok ((Transaction.placeOf name transactions).bind (scan entries))
  blockOf_eq_none_iff : ∀ name, Ledger.blockOf ledger name = .ok none ↔
    Transaction.placeOf name transactions = none ∨
      ∃ place, Transaction.placeOf name transactions = some place ∧ IsBeyond entries place
  status : ∀ name, Ledger.status ledger name = .ok (scannedStatus transactions entries name)

end Ledger

/-! ### Blocks end to end -/

/-- Blocks that lie end to end leave no place out. -/
theorem Tiles.exists_block {start stop : Nat} {blocks : List Block}
    (tiles : Tiles start blocks stop) {place : Nat} (after : start ≤ place) (before : place < stop) :
    ∃ block ∈ blocks, block.first.toNat ≤ place ∧ place ≤ block.last.toNat := by
  induction blocks generalizing start with
  | nil =>
    have empty : start = stop := tiles
    omega
  | cons block rest inductionHypothesis =>
    obtain ⟨begins, _, restTiles⟩ := tiles
    by_cases here : place ≤ block.last.toNat
    · exact ⟨block, List.mem_cons_self, by omega, here⟩
    · obtain ⟨other, member, within⟩ := inductionHypothesis restTiles (Nat.lt_of_not_le here)
      exact ⟨other, List.mem_cons_of_mem _ member, within⟩

namespace IndexedLedger

variable {H : DigestFunction} {ledger : IndexedLedger}

/-- The index of positions leads to the only transaction with a digest. -/
theorem Sound.lookup_positions_eq (sound : ledger.Sound H) (name : Digest) :
    ledger.positions.lookup name = Transaction.placeOf name ledger.transactions := by
  ext place
  rw [sound.positions, Transaction.placeOf, List.findIdx?_eq_some_iff_getElem]
  constructor
  · intro standing
    obtain ⟨transaction, here, rfl⟩ := Option.map_eq_some_iff.mp standing
    obtain ⟨bound, rfl⟩ := List.getElem?_eq_some_iff.mp here
    refine ⟨bound, beq_self_eq_true _, fun earlier before same => ?_⟩
    have first := (sound.positions _ place).mpr standing
    have second := (sound.positions ledger.transactions[place].digest earlier).mpr (by
      rw [List.getElem?_eq_getElem (Nat.lt_trans before bound), Option.map_some, eq_of_beq same])
    exact Nat.ne_of_lt before (Option.some.inj (second.symm.trans first))
  · rintro ⟨bound, same, _⟩
    rw [List.getElem?_eq_getElem bound, Option.map_some, eq_of_beq same]

theorem Sound.scan_eq (sound : ledger.Sound H) (place : Nat) :
    Ledger.scan ledger.entries place = ledger.covering place := by
  rw [Ledger.scan, map_block_entries]
  cases found : ledger.blocks.find? fun block => block.contains (UInt64.ofNat place) with
  | some block =>
    exact (sound.covering_eq_some_iff_contains.mpr
      ⟨List.mem_of_find?_eq_some found, by simpa using List.find?_some found⟩).symm
  | none =>
    refine (Option.eq_none_iff_forall_ne_some.mpr fun block covers => ?_).symm
    obtain ⟨member, within⟩ := sound.covering_eq_some_iff_contains.mp covers
    exact List.find?_eq_none.mp found block member within

theorem Sound.isBeyond_iff (sound : ledger.Sound H) (place : Nat) :
    Ledger.IsBeyond ledger.entries place ↔ ledger.covered ≤ (UInt64.ofNat place).toNat := by
  have listed : Ledger.IsBeyond ledger.entries place ↔
      ∀ block ∈ ledger.blocks.getLast?, block.last < UInt64.ofNat place := by
    rw [← map_block_entries, List.getLast?_map]
    simp [Ledger.IsBeyond]
  have tiles := sound.tiles
  rw [listed]
  cases blocks : ledger.blocks using List.reverseRecOn with
  | nil =>
    rw [blocks] at tiles
    have none : 0 = ledger.covered := tiles
    simp [← none]
  | append_singleton earlier block _ =>
    rw [blocks, Tiles.append_iff] at tiles
    rw [List.getLast?_concat, tiles.2.2]
    constructor
    · exact fun before => UInt64.lt_iff_toNat_lt.mp (before block rfl)
    · rintro before _ ⟨⟩
      exact UInt64.lt_iff_toNat_lt.mpr before

/-- Only a place after the last block is in none. -/
theorem Sound.covering_eq_none_iff (sound : ledger.Sound H) (place : Nat) :
    ledger.covering place = none ↔ Ledger.IsBeyond ledger.entries place := by
  rw [sound.isBeyond_iff, Option.eq_none_iff_forall_ne_some]
  constructor
  · intro uncovered
    refine Nat.not_lt.mp fun within => ?_
    obtain ⟨block, member, range⟩ := sound.tiles.exists_block (Nat.zero_le _) within
    exact uncovered block
      (sound.covering_eq_some_iff_contains.mpr ⟨member, contains_iff_toNat.mpr range⟩)
  · intro beyond block covers
    obtain ⟨member, within⟩ := sound.covering_eq_some_iff_contains.mp covers
    have ends := (sound.tiles.mem_bounds member).2.2
    have reaches := (contains_iff_toNat.mp within).2
    omega

end IndexedLedger

/-! ### Both kinds of ledgers -/

namespace Ledger

variable {L : Type} [Ledger L] {H : DigestFunction}

theorem Window.agreesWithScan (window : Window H L) {ledger : L} {indexed : IndexedLedger}
    (seen : window.Sees ledger indexed) :
    AgreesWithScan ledger indexed.transactions indexed.entries := by
  have sound := window.sound seen
  refine ⟨window.lists seen, fun name => ?_, fun name => ?_, fun name => ?_⟩
  · rw [window.blockOf_eq seen, IndexedLedger.blockOf, sound.lookup_positions_eq]
    exact congrArg Except.ok (Option.bind_congr fun place _ => (sound.scan_eq place).symm)
  · rw [window.blockOf_eq seen, IndexedLedger.blockOf, sound.lookup_positions_eq, Except.ok.injEq]
    cases Transaction.placeOf name indexed.transactions with
    | none => simp
    | some place => simp [sound.covering_eq_none_iff]
  · rw [window.status_eq seen, IndexedLedger.status, sound.lookup_positions_eq, scannedStatus]
    cases Transaction.placeOf name indexed.transactions with
    | none => rfl
    | some place =>
      simp only [sound.scan_eq]
      cases indexed.covering place <;> rfl

/-- After any history that started empty, a ledger in memory finds the block and the status of each
transaction as a walk along its chain does, and so does a ledger in a table, as long as positions
and lengths fit into eight bytes. -/
theorem agreesWithScan_of_empty (H : DigestFunction) (history : List Operation) :
    (∃ entries, AgreesWithScan (runAll H IndexedLedger.empty history).2
        (accepted H IndexedLedger.empty history) entries) ∧
      ((∀ operation ∈ history, operation.Fits) →
        (accepted H IndexedLedger.empty history).length < 2 ^ 64 →
        ∃ entries, AgreesWithScan (runAll H KeyedLedger.empty history).2
          (accepted H KeyedLedger.empty history) entries) := by
  rw [← transactions_of_empty]
  refine ⟨⟨_, (IndexedLedger.window H).agreesWithScan (sees_indexed_runAll history)⟩,
    fun operationsFit small => ?_⟩
  obtain ⟨seen, same⟩ := sees_keyed_runAll operationsFit small
  rw [same, ← transactions_of_empty]
  exact ⟨_, (KeyedLedger.window H).agreesWithScan seen⟩

/-- The last transaction of a published block, the only one of a pending block, and one that
waits. -/
theorem agreesWithScan_of_empty_three :
    let H : DigestFunction := fun bytes => ⟨UInt8.ofNat bytes.length :: List.replicate 31 0, rfl⟩
    let transaction : Nat → Transaction := fun place =>
      let payload := List.replicate (place + 1) 0
      ⟨H payload, .zero 16, UInt64.ofNat place, payload⟩
    let name := Header.digest H ⟨Digest.zero, Digest.zero, H (List.replicate 64 0), 0⟩
    let history : List Operation := [
      .store (transaction 0), .store (transaction 1), .store (transaction 2), .propose 1 0,
      .finalize name (.logEntry name), .propose 1 20, .store (transaction 3)]
    let ledger := (runAll H KeyedLedger.empty history).2
    (∃ entries, AgreesWithScan ledger (accepted H KeyedLedger.empty history) entries) ∧
      ((Operation.status (H [0, 0])).run H ledger).1 = .status .finalized ∧
      ((Operation.status (H [0, 0, 0])).run H ledger).1 = .status .committed ∧
      ((Operation.blockOf (H [0, 0, 0, 0])).run H ledger).1 = .block none := by
  intro H transaction name history ledger
  refine ⟨(agreesWithScan_of_empty H history).2 ?_ (by decide +kernel), by decide +kernel,
    by decide +kernel, by decide +kernel⟩
  simp [history, transaction, Operation.Fits, Transaction.Fits, Publication.Fits]

end Ledger

end StreamLedger
