/-
This file proves that a ledger can prove what it has published. After any history that started
empty, and as long as no two blocks share a name, a transaction has a proof exactly when a finalized
block covers its position, and that proof leads to the Merkle root of the block's header. The proof
is put together at the time of asking: the block is found by the transaction's position, its
transactions by its name, and the leaf among them by the transaction's digest. Each of the three
leads to the right place, and the payloads there are those that the header was made over.
-/
import StreamLedger.Ledger.Proving
import StreamLedger.Proofs.Ledger.Window
import StreamLedger.Proofs.Merkle

namespace StreamLedger

/-- What a proof has to say of the transaction at a position of a block. -/
structure InclusionProof.Attests (H : DigestFunction) (proof : InclusionProof)
    (transaction : Transaction) (position : Nat) (block : Block) : Prop where
  digest : proof.transaction = transaction.digest
  name : proof.block = block.digest H
  payload : proof.payload = transaction.payload
  index : proof.index.toNat = position - block.first.toNat
  /-- There is one sibling for each level of the tree over the block. -/
  siblings : proof.path.length = Nat.log2 (block.last.toNat + 1 - block.first.toNat)
  verifies : proof.verifies H block.header.merkleRoot = true

namespace IndexedLedger

variable {H : DigestFunction} {ledger : IndexedLedger}

/-! ### Blocks by their names -/

/-- Where no two blocks share a name, a block's name leads to it. -/
theorem Sound.lookup_places (sound : Sound H ledger)
    (distinct : (ledger.blocks.map (·.digest H)).Nodup) {place : Nat} {block : Block}
    (standing : ledger.blocks[place]? = some block) :
    ledger.places.lookup (block.digest H) = some place := by
  obtain ⟨later, _, found⟩ := sound.latest place block standing
  obtain ⟨other, otherStanding, same⟩ := sound.named _ _ found
  have bound := (List.getElem?_eq_some_iff.mp standing).1
  have places : place = later := by
    refine (List.getElem?_inj (by rwa [List.length_map]) distinct).mp ?_
    rw [List.getElem?_map, List.getElem?_map, standing, otherStanding, Option.map_some,
      Option.map_some, same]
  rw [found, places]

theorem Sound.transactionsOf_digest (sound : Sound H ledger)
    (distinct : (ledger.blocks.map (·.digest H)).Nodup) {block : Block}
    (member : block ∈ ledger.blocks) :
    ledger.transactionsOf (block.digest H) = .ok (ledger.inBlock block) := by
  obtain ⟨place, standing⟩ := List.mem_iff_getElem?.mp member
  simp only [transactionsOf, sound.lookup_places distinct standing, Option.bind_some, standing]

/-! ### Leaves by their digests -/

variable (ledger) in
theorem getElem?_inBlock {block : Block} {position : Nat} (after : block.first.toNat ≤ position)
    (before : position ≤ block.last.toNat) :
    (ledger.inBlock block)[position - block.first.toNat]? = ledger.transactions[position]? := by
  rw [inBlock, slice, List.getElem?_take_of_lt (by omega), List.getElem?_drop,
    Nat.add_sub_cancel' after]

/-- No two transactions share a digest, so a transaction's digest finds its own place. -/
theorem Sound.findIdx?_inBlock (sound : Sound H ledger) {block : Block} {position : Nat}
    {transaction : Transaction} (standing : ledger.transactions[position]? = some transaction)
    (after : block.first.toNat ≤ position) (before : position ≤ block.last.toNat) :
    (ledger.inBlock block).findIdx? (fun other => other.digest == transaction.digest) =
      some (position - block.first.toNat) := by
  have inBlock := getElem?_inBlock ledger after before
  rw [standing] at inBlock
  obtain ⟨bound, here⟩ := List.getElem?_eq_some_iff.mp inBlock
  refine List.findIdx?_eq_some_iff_getElem.mpr ⟨bound, by rw [here]; exact beq_self_eq_true _, ?_⟩
  intro place earlier same
  have other : (ledger.inBlock block)[place]? =
      ledger.transactions[block.first.toNat + place]? := by
    rw [← getElem?_inBlock ledger (Nat.le_add_right _ place) (by omega), Nat.add_sub_cancel_left]
  have found : ∀ position, ledger.transactions[position]?.map (·.digest) = some transaction.digest →
      ledger.positions.lookup transaction.digest = some position := fun position =>
    (sound.positions _ _).mpr
  have first := found position (by rw [standing]; rfl)
  have second := found (block.first.toNat + place) (by
    rw [← other, List.getElem?_eq_getElem (Nat.lt_trans earlier bound), Option.map_some,
      eq_of_beq same])
  rw [first] at second
  have equal := Option.some.inj second
  omega

/-! ### Proofs -/

/-- The transactions of a block are as many as a power of two, and its header has their root. -/
theorem Headed.merkleRoot (headed : Headed H ledger) {block : Block}
    (member : block ∈ ledger.blocks) :
    (ledger.inBlock block).length = 2 ^ Nat.log2 (ledger.inBlock block).length ∧
      Merkle.rootOf H ((ledger.inBlock block).map (·.payload)) = block.header.merkleRoot := by
  obtain ⟨place, standing⟩ := List.mem_iff_getElem?.mp member
  have made := (Header.of_next_eq_ok (headed place block standing)).2.1
  obtain ⟨shape, rootIs⟩ := Merkle.of_root_eq_ok made
  rw [List.length_map] at shape
  exact ⟨shape, rootIs⟩

theorem Sound.length_inBlock (sound : Sound H ledger) {block : Block}
    (member : block ∈ ledger.blocks) :
    (ledger.inBlock block).length = block.last.toNat + 1 - block.first.toNat := by
  obtain ⟨_, _, before⟩ := sound.tiles.mem_bounds member
  exact length_slice (Nat.lt_of_lt_of_le before sound.covered_le)

/-- A transaction whose position lies in a finalized block has a proof. -/
theorem Sound.prove_of_covered (sound : Sound H ledger) (headed : Headed H ledger)
    (distinct : (ledger.blocks.map (·.digest H)).Nodup)
    (small : ledger.transactions.length < 2 ^ 64) {position : Nat} {transaction : Transaction}
    {block : Block} (standing : ledger.transactions[position]? = some transaction)
    (member : block ∈ ledger.blocks) (after : block.first.toNat ≤ position)
    (before : position ≤ block.last.toNat) (finalized : block.isFinalized = true) :
    ∃ proof, Ledger.prove H ledger transaction.digest = .ok (some proof) ∧
      proof.Attests H transaction position block := by
  have bound := (List.getElem?_eq_some_iff.mp standing).1
  have found : ledger.positions.lookup transaction.digest = some position :=
    (sound.positions _ _).mpr (by rw [standing]; rfl)
  have covering : ledger.blockOf transaction.digest = some block := by
    rw [blockOf, found, Option.bind_some]
    exact (sound.covering_eq_some_iff (Nat.lt_trans bound small)).mpr ⟨member, after, before⟩
  have named := sound.transactionsOf_digest distinct member
  have leaf := sound.findIdx?_inBlock standing after before
  have inBlock := getElem?_inBlock ledger after before
  rw [standing] at inBlock
  have length := sound.length_inBlock member
  obtain ⟨shape, rootIs⟩ := headed.merkleRoot member
  have lastLt := block.last.toNat_lt
  have covered := (sound.tiles.mem_bounds member).2.2
  have withinLedger := sound.covered_le
  have payload : ((ledger.inBlock block).map (·.payload))[position - block.first.toNat]? =
      some transaction.payload := by rw [List.getElem?_map, inBlock, Option.map_some]
  obtain ⟨siblings, path, siblingsLength, leads⟩ :=
    Merkle.path_spec (H := H) (by rwa [List.length_map]) (by rw [List.length_map]; omega) payload
  refine ⟨⟨transaction.digest, block.digest H, transaction.payload,
    UInt64.ofNat (position - block.first.toNat), siblings⟩, ?_, rfl, rfl, rfl, ?_, ?_, ?_⟩
  · simp only [Ledger.prove, Ledger.blockOf, Ledger.transactionsOf, bind, Except.bind, covering,
      finalized, named, leaf, path, inBlock]
    rfl
  · exact UInt64.toNat_ofNat_of_lt' (Nat.lt_of_le_of_lt (Nat.sub_le _ _) (Nat.lt_trans bound small))
  · rw [siblingsLength, List.length_map, length]
  · rw [InclusionProof.verifies, InclusionProof.root,
      UInt64.toNat_ofNat_of_lt' (Nat.lt_of_le_of_lt (Nat.sub_le _ _) (Nat.lt_trans bound small)),
      leads, rootIs]
    exact beq_self_eq_true _

/-- A transaction that lies in no finalized block has none. -/
theorem Sound.prove_of_not_covered (sound : Sound H ledger)
    (small : ledger.transactions.length < 2 ^ 64) {name : Digest}
    (uncovered : ∀ position transaction block, ledger.transactions[position]? = some transaction →
      transaction.digest = name → block ∈ ledger.blocks → block.first.toNat ≤ position →
      position ≤ block.last.toNat → block.isFinalized = false) :
    Ledger.prove H ledger name = .ok none := by
  simp only [Ledger.prove, Ledger.blockOf, bind, Except.bind]
  cases covering : ledger.blockOf name with
  | none => rfl
  | some block =>
    obtain ⟨position, found, covers⟩ := Option.bind_eq_some_iff.mp covering
    obtain ⟨transaction, standing, same⟩ :=
      Option.map_eq_some_iff.mp ((sound.positions name position).mp found)
    have bound := (List.getElem?_eq_some_iff.mp standing).1
    obtain ⟨member, after, before⟩ :=
      (sound.covering_eq_some_iff (Nat.lt_trans bound small)).mp covers
    simp only [uncovered position transaction block standing same member after before]
    rfl

end IndexedLedger

namespace Ledger

variable {L : Type} [Ledger L] {H : DigestFunction}

/-- Proofs are put together from answers, so a ledger gives those of the one it is seen as. -/
theorem Window.prove_eq (window : Window H L) {ledger : L} {indexed : IndexedLedger}
    (seen : window.Sees ledger indexed) (name : Digest) :
    prove H ledger name = prove H indexed name := by
  have block : blockOf ledger name = blockOf indexed name := window.blockOf_eq seen name
  have transactions : ∀ block, transactionsOf ledger block = transactionsOf indexed block :=
    window.transactionsOf_eq seen
  simp only [prove, block, transactions]

/-- A finalized block of a chain covers the transaction with a name. -/
structure Covers (transactions : List Transaction) (entries : List BlockEntry) (name : Digest)
    (position : Nat) (transaction : Transaction) (block : Block) : Prop where
  standing : transactions[position]? = some transaction
  named : transaction.digest = name
  listed : block ∈ entries.map (·.block)
  after : block.first.toNat ≤ position
  before : position ≤ block.last.toNat
  finalized : block.isFinalized = true

/-- After a history, a ledger proves exactly those of the stored transactions that a finalized
block of its chain covers, provided that no two blocks of the chain share a name. -/
def ProvesCovered (H : DigestFunction) (start : L) (history : List Operation) : Prop :=
  ∃ entries, Lists (runAll H start history).2 entries ∧
    ((entries.map (·.block.digest H)).Nodup → ∀ name,
      (∀ position transaction block,
        Covers (accepted H start history) entries name position transaction block →
        ∃ proof, prove H (runAll H start history).2 name = .ok (some proof) ∧
          proof.Attests H transaction position block) ∧
      ((¬ ∃ position transaction block,
          Covers (accepted H start history) entries name position transaction block) →
        prove H (runAll H start history).2 name = .ok none))

theorem provesCovered_of_sees (window : Window H L) {start : L} {history : List Operation}
    (seen : window.Sees (runAll H start history).2 (runAll H IndexedLedger.empty history).2)
    (same : accepted H start history = accepted H IndexedLedger.empty history)
    (small : (accepted H IndexedLedger.empty history).length < 2 ^ 64) :
    ProvesCovered H start history := by
  have stored := transactions_runAll (IndexedLedger.sound_empty H) history
  rw [show accepted H IndexedLedger.empty history = _ from stored.symm] at same small
  have headed := IndexedLedger.headed_empty.runAll (IndexedLedger.sound_empty H) history
  have sound := window.sound seen
  refine ⟨_, window.lists seen, fun distinct name => ?_⟩
  rw [IndexedLedger.map_entries (Block.digest H)] at distinct
  rw [window.prove_eq seen, same]
  refine ⟨fun position transaction block covers => ?_, fun uncovered => ?_⟩
  · obtain ⟨standing, rfl, listed, after, before, finalized⟩ := covers
    rw [IndexedLedger.map_block_entries] at listed
    exact sound.prove_of_covered headed distinct small standing listed after before finalized
  · refine sound.prove_of_not_covered small fun position transaction block standing named member
      after before => Bool.eq_false_iff.mpr fun finalized => uncovered ?_
    rw [← IndexedLedger.map_block_entries] at member
    exact ⟨position, transaction, block, standing, named, member, after, before, finalized⟩

/-- A ledger in memory proves exactly what it has published, and so does a ledger in a table, as
long as positions and lengths fit into eight bytes. -/
theorem provesCovered_of_empty (H : DigestFunction) (history : List Operation)
    (small : (accepted H IndexedLedger.empty history).length < 2 ^ 64) :
    ProvesCovered H IndexedLedger.empty history ∧
      ((∀ operation ∈ history, operation.Fits) → ProvesCovered H KeyedLedger.empty history) := by
  refine ⟨provesCovered_of_sees (IndexedLedger.window H) (sees_indexed_runAll history) rfl small,
    fun operationsFit => ?_⟩
  have stored := transactions_runAll (IndexedLedger.sound_empty H) history
  obtain ⟨seen, same⟩ := sees_keyed_runAll (H := H) operationsFit
    (by rw [stored]; exact small)
  exact provesCovered_of_sees (KeyedLedger.window H) seen same small

/-- The second transaction of a finalized block of two. -/
theorem provesCovered_of_empty_pair :
    let H : DigestFunction := fun _ => Digest.zero
    let transaction : Transaction := ⟨⟨List.replicate 32 1, rfl⟩, .zero 16, 1, [2]⟩
    let block : Block :=
      ⟨⟨Digest.zero, Digest.zero, Digest.zero, 0⟩, some (.logEntry Digest.zero), 0, 1⟩
    let history : List Operation := [
      .store ⟨Digest.zero, .zero 16, 0, [1]⟩, .store transaction, .propose 3 0,
      .finalize Digest.zero (.logEntry Digest.zero)]
    ∃ proof, prove H (runAll H KeyedLedger.empty history).2 transaction.digest =
      .ok (some proof) ∧ proof.Attests H transaction 1 block := by
  intro H transaction block history
  have small : (accepted H IndexedLedger.empty history).length < 2 ^ 64 := by decide
  have operationsFit : ∀ operation ∈ history, operation.Fits := by
    simp only [history, List.forall_mem_cons, Operation.Fits, Transaction.Fits, Publication.Fits,
      true_and]
    exact ⟨by decide, by decide, fun operation member => by cases member⟩
  obtain ⟨entries, lists, proves⟩ := (provesCovered_of_empty H history small).2 operationsFit
  obtain ⟨seen, _⟩ := sees_keyed_runAll (H := H) operationsFit (by decide)
  have listed := lists.unique ((KeyedLedger.window H).lists seen)
  rw [listed] at proves
  have distinct :
      ((runAll H IndexedLedger.empty history).2.entries.map (·.block.digest H)).Nodup := by
    decide +kernel
  have covers : Covers (accepted H KeyedLedger.empty history)
      (runAll H IndexedLedger.empty history).2.entries transaction.digest 1 transaction block :=
    ⟨by decide +kernel, rfl, by decide +kernel, by decide, by decide, rfl⟩
  exact (proves distinct transaction.digest).1 1 transaction block covers

end Ledger

end StreamLedger
