/-
This file proves what the blocks of a ledger are, after any history that started empty. They lie
end to end over the first transactions, each is as long as the limit in force allowed when it was
made, and each header commits to the payloads under it and to the block before as that one is
published now. The proof is about the ledger in memory, where one more invariant is kept: every
header is the one that comes next after the blocks before it. The ledger in a table lists the
same blocks.
-/
import Mathlib.Data.List.Induction
import StreamLedger.Proofs.Ledger.Agreement

namespace StreamLedger

/-! ### Headers -/

section

variable {H : DigestFunction}

/-- What the header of the next block commits to. -/
theorem Header.of_next_eq_ok {previous : Option Block} {payloads : List Bytes} {now : Int64}
    {header : Header} (made : Header.next H previous payloads now = .ok header) :
    header.createdAt = now ∧ Merkle.root H payloads = .ok header.merkleRoot ∧
      (previous = none →
        header.previousHeader = Digest.zero ∧ header.previousPublication = Digest.zero) ∧
      ∀ block, previous = some block → header.previousHeader = block.digest H ∧
        ∃ publication, block.publication = some publication ∧
          header.previousPublication = publication.digest H := by
  unfold Header.next at made
  split at made
  · cases made
  · rename_i merkleRoot root
    cases previous with
    | none =>
      cases made
      exact ⟨rfl, root, fun _ => ⟨rfl, rfl⟩, fun block same => by cases same⟩
    | some block =>
      simp only at made
      split at made
      · cases made
      · rename_i publication published
        cases made
        refine ⟨rfl, root, fun absent => (by cases absent), fun other same => ?_⟩
        cases same
        exact ⟨rfl, publication, published, rfl⟩

namespace IndexedLedger

variable {ledger : IndexedLedger}

/-- Every block's header is the one that comes next after the blocks before it. -/
def Headed (H : DigestFunction) (ledger : IndexedLedger) : Prop :=
  ∀ place block, ledger.blocks[place]? = some block →
    Header.next H (ledger.blocks.take place).getLast? ((ledger.inBlock block).map (·.payload))
      block.header.createdAt = .ok block.header

theorem headed_empty : Headed H empty := by
  intro place block standing
  cases standing

theorem Headed.run (headed : Headed H ledger) (sound : Sound H ledger)
    (operation : Ledger.Operation) : Headed H (operation.run H ledger).2 := by
  have step := sound.advances operation
  generalize (operation.run H ledger).2 = changed at step ⊢
  cases step with
  | kept => exact headed
  | appended inOrder fresh =>
    intro place block standing
    rw [sound.inBlock_appended _ (List.mem_of_getElem? standing)]
    exact headed place block standing
  | extended settled waiting made =>
    intro place block standing
    change (ledger.blocks ++ [_])[place]? = some block at standing
    show Header.next H ((ledger.blocks ++ [_]).take place).getLast? _ _ = _
    rw [getElem?_append_singleton] at standing
    split at standing
    · rename_i final
      cases standing
      rw [final, List.take_left]
      exact (Header.of_next_eq_ok made).1 ▸ made
    · have before := (List.getElem?_eq_some_iff.mp standing).1
      rw [List.take_append_of_le_length (Nat.le_of_lt before)]
      exact headed place block standing
  | finalized whole pending digest =>
    rename_i earlier last
    intro place block standing
    change (earlier ++ [_])[place]? = some block at standing
    show Header.next H ((earlier ++ [_]).take place).getLast? _ _ = _
    have before := headed place
    rw [whole, getElem?_append_singleton] at before
    rw [getElem?_append_singleton] at standing
    split at standing
    · rename_i final
      cases standing
      rw [final, List.take_left] at before ⊢
      exact before last (if_pos rfl)
    · rename_i notFinal
      have bound := (List.getElem?_eq_some_iff.mp standing).1
      rw [if_neg notFinal, List.take_append_of_le_length (Nat.le_of_lt bound)] at before
      rw [List.take_append_of_le_length (Nat.le_of_lt bound)]
      exact before block standing

theorem Headed.runAll (headed : Headed H ledger) (sound : Sound H ledger)
    (history : List Ledger.Operation) : Headed H (Ledger.runAll H ledger history).2 := by
  induction history generalizing ledger with
  | nil => exact headed
  | cons operation rest inductionHypothesis =>
    exact inductionHypothesis (headed.run sound operation) (sound.run operation)

/-! ### Where a block comes from -/

/-- A block at a place was made by one of the operations, over as many transactions as a power
of two within the limit of that operation. -/
def Made (H : DigestFunction) (history : List Ledger.Operation) (place : Nat) (block : Block) :
    Prop :=
  ∃ past maxExponent now future made, history = past ++ .propose maxExponent now :: future ∧
    (Ledger.runAll H empty past).2.blocks.length = place ∧
    (Ledger.runAll H empty (past ++ [.propose maxExponent now])).2 =
      (Ledger.runAll H empty past).2.extended H made ∧
    made.header = block.header ∧ made.first = block.first ∧ made.last = block.last ∧
    ∃ exponent ≤ maxExponent, block.last.toNat + 1 - block.first.toNat = 2 ^ exponent

theorem Made.append {history : List Ledger.Operation} {place : Nat} {block : Block}
    (made : Made H history place block) (operation : Ledger.Operation) :
    Made H (history ++ [operation]) place block := by
  obtain ⟨past, maxExponent, now, future, before, rfl, rest⟩ := made
  exact ⟨past, maxExponent, now, future ++ [operation], before, by simp, rest⟩

/-- The next block is as long as a power of two within the limit. -/
theorem nextBlock_size (maxExponent : Nat) (header : Header)
    (waiting : Block.nextPosition ledger.blocks.getLast? <
      UInt64.ofNat ledger.transactions.length) :
    ∃ exponent ≤ maxExponent, (ledger.nextBlock maxExponent header).last.toNat + 1 -
      (ledger.nextBlock maxExponent header).first.toNat = 2 ^ exponent := by
  obtain ⟨ends, _, _⟩ := nextLast_spec maxExponent waiting
  have below := UInt64.lt_iff_toNat_lt.mp waiting
  obtain ⟨exponent, small, size⟩ := blockSize_eq_pow maxExponent (Nat.sub_pos_of_lt below)
  refine ⟨exponent, small, ?_⟩
  show (nextLast _ _ maxExponent).toNat + 1 - (Block.nextPosition ledger.blocks.getLast?).toNat = _
  rw [ends, Nat.add_sub_cancel_left, size]

theorem made_of_getElem? (history : List Ledger.Operation) {place : Nat} {block : Block}
    (standing : (Ledger.runAll H empty history).2.blocks[place]? = some block) :
    Made H history place block := by
  induction history using List.reverseRecOn generalizing block with
  | nil => cases standing
  | append_singleton past operation inductionHypothesis =>
    have sound := (sound_empty H).runAll past
    have step := sound.advances operation
    have final : (Ledger.runAll H empty (past ++ [operation])).2 =
        (operation.run H (Ledger.runAll H empty past).2).2 := Ledger.runAll_append empty past _
    rw [final] at standing
    generalize changedIs : (operation.run H (Ledger.runAll H empty past).2).2 = changed
      at step standing
    rw [changedIs] at final
    cases step with
    | kept => exact (inductionHypothesis standing).append operation
    | appended inOrder fresh => exact (inductionHypothesis standing).append _
    | @extended maxExponent now header settled waiting made =>
      change (_ ++ [_])[place]? = some block at standing
      rw [getElem?_append_singleton] at standing
      split at standing
      · rename_i place
        cases standing
        exact ⟨past, maxExponent, now, [], _, rfl, place.symm, final, rfl, rfl, rfl,
          nextBlock_size maxExponent header waiting⟩
      · exact (inductionHypothesis standing).append _
    | @finalized name publication earlier last whole pending digest =>
      change (earlier ++ [_])[place]? = some block at standing
      rw [whole] at inductionHypothesis
      rw [getElem?_append_singleton] at standing
      split at standing
      · rename_i place
        cases standing
        obtain ⟨past, maxExponent, now, future, made, rest⟩ :=
          (inductionHypothesis (by rw [getElem?_append_singleton, if_pos place])).append _
        exact ⟨past, maxExponent, now, future, made, rest⟩
      · rename_i notFinal
        refine (inductionHypothesis ?_).append _
        rw [getElem?_append_singleton, if_neg notFinal, standing]

/-! ### The chain as it is listed -/

/-- The blocks in the order of the chain, each with its transactions. -/
def entries (ledger : IndexedLedger) : List BlockEntry :=
  ledger.blocks.zipIdx.map fun (block, place) => ⟨place + 1, block, ledger.inBlock block⟩

theorem getElem?_entries (place : Nat) :
    ledger.entries[place]? =
      ledger.blocks[place]?.map fun block => ⟨place + 1, block, ledger.inBlock block⟩ := by
  simp [entries, List.getElem?_map, List.getElem?_zipIdx, Function.comp_def]

theorem map_block_entries : ledger.entries.map (·.block) = ledger.blocks := by
  ext place block
  rw [List.getElem?_map, getElem?_entries, Option.map_map]
  simp [Function.comp_def]

/-- What is said of each entry's block is said of each block. -/
theorem map_entries {α : Type} (f : Block → α) :
    ledger.entries.map (fun entry => f entry.block) = ledger.blocks.map f := by
  rw [← map_block_entries, List.map_map]
  rfl

/-- Only blocks of the ledger stand on a page of it. -/
theorem mem_of_mem_page {skip take place : Nat} {block : Block}
    (member : (block, place) ∈ (ledger.blocks.zipIdx.drop skip).take take) :
    block ∈ ledger.blocks :=
  List.mem_of_getElem? (List.mem_zipIdx_iff_getElem?.mp
    (List.mem_of_mem_drop (List.mem_of_mem_take member)))

theorem mem_entries {entry : BlockEntry} (member : entry ∈ ledger.entries) :
    entry.block ∈ ledger.blocks ∧ entry.transactions = ledger.inBlock entry.block := by
  obtain ⟨⟨block, place⟩, standing, rfl⟩ := List.mem_map.mp member
  exact ⟨List.mem_of_getElem? (List.mem_zipIdx_iff_getElem?.mp standing), rfl⟩

theorem entries_extended (block : Block) :
    (ledger.extended H block).entries =
      ledger.entries ++ [⟨ledger.blocks.length + 1, block, ledger.inBlock block⟩] := by
  ext place entry
  rw [getElem?_entries, getElem?_append_singleton]
  show ((ledger.blocks ++ [block])[place]?).map _ = some entry ↔ _
  rw [getElem?_append_singleton, getElem?_entries]
  have length : ledger.entries.length = ledger.blocks.length := by simp [entries]
  rw [length]
  split
  · rename_i final
    rw [final]
    rfl
  · rfl

/-- Blocks end to end hold the transactions from the first of them to the last, in order. -/
theorem flatMap_inBlock {start stop : Nat} {blocks : List Block} (tiles : Tiles start blocks stop) :
    blocks.flatMap ledger.inBlock = (ledger.transactions.drop start).take (stop - start) := by
  induction blocks generalizing start with
  | nil =>
    obtain rfl : start = stop := tiles
    rw [Nat.sub_self, List.take_zero]
    rfl
  | cons block rest inductionHypothesis =>
    obtain ⟨begins, ordered, restTiles⟩ := tiles
    have bound := restTiles.start_le_stop
    have lengths :
        stop - start = (block.last.toNat + 1 - start) + (stop - (block.last.toNat + 1)) := by
      omega
    rw [List.flatMap_cons, inductionHypothesis restTiles, lengths, List.take_add, List.drop_drop,
      Nat.add_sub_cancel' (by omega), inBlock, slice, begins]

end IndexedLedger

end

/-! ### Chains -/

/-- What the blocks of a ledger are: a chain over the first `covered` of its transactions. -/
structure Chain (H : DigestFunction) (transactions : List Transaction) (covered : Nat)
    (entries : List BlockEntry) : Prop where
  within : covered ≤ transactions.length
  /-- The blocks lie end to end. -/
  tiles : Tiles 0 (entries.map (·.block)) covered
  /-- All transactions of the blocks are the first ones in the order of arrival. -/
  whole : entries.flatMap (·.transactions) = transactions.take covered
  ranges : ∀ entry ∈ entries, entry.transactions =
    (transactions.drop entry.block.first.toNat).take
      (entry.block.last.toNat + 1 - entry.block.first.toNat)
  roots : ∀ entry ∈ entries,
    Merkle.root H (entry.transactions.map (·.payload)) = .ok entry.block.header.merkleRoot
  genesis : ∀ entry, entries[0]? = some entry →
    entry.block.header.previousHeader = Digest.zero ∧
      entry.block.header.previousPublication = Digest.zero
  linked : ∀ place earlier later, entries[place]? = some earlier →
    entries[place + 1]? = some later →
    later.block.header.previousHeader = earlier.block.digest H ∧
      ∃ publication, earlier.block.publication = some publication ∧
        later.block.header.previousPublication = publication.digest H
  settled : ∀ entry ∈ entries.dropLast, entry.block.isFinalized = true

theorem IndexedLedger.Sound.chain {H : DigestFunction} {ledger : IndexedLedger}
    (sound : ledger.Sound H) (headed : ledger.Headed H) :
    Chain H ledger.transactions ledger.covered ledger.entries where
  within := sound.covered_le
  tiles := by
    rw [map_block_entries]
    exact sound.tiles
  whole := by
    have blocks :
        ledger.entries.flatMap (·.transactions) = ledger.blocks.flatMap ledger.inBlock := by
      rw [← map_block_entries, List.flatMap_map]
      exact List.flatMap_congr fun entry member => (mem_entries member).2
    rw [blocks, flatMap_inBlock sound.tiles, List.drop_zero, Nat.sub_zero]
  ranges entry member := (mem_entries member).2
  roots entry member := by
    obtain ⟨block, transactions⟩ := mem_entries member
    obtain ⟨place, standing⟩ := List.mem_iff_getElem?.mp block
    rw [transactions]
    exact (Header.of_next_eq_ok (headed place _ standing)).2.1
  genesis entry standing := by
    rw [getElem?_entries] at standing
    obtain ⟨block, blockStanding, rfl⟩ := Option.map_eq_some_iff.mp standing
    exact (Header.of_next_eq_ok (headed 0 block blockStanding)).2.2.1 rfl
  linked place earlier later earlierStanding laterStanding := by
    rw [getElem?_entries] at earlierStanding laterStanding
    obtain ⟨previous, previousStanding, rfl⟩ := Option.map_eq_some_iff.mp earlierStanding
    obtain ⟨block, standing, rfl⟩ := Option.map_eq_some_iff.mp laterStanding
    refine (Header.of_next_eq_ok (headed (place + 1) block standing)).2.2.2 previous ?_
    rw [List.take_add_one, previousStanding]
    simp
  settled entry member := by
    refine sound.settled _ ?_
    rw [← map_block_entries, ← List.map_dropLast]
    exact List.mem_map_of_mem member

namespace Ledger

section

variable {L : Type} [Ledger L]

/-- What a ledger lists as its whole chain. -/
def Lists (ledger : L) (entries : List BlockEntry) : Prop :=
  ∀ take, entries.length ≤ take → Ledger.page ledger 0 take true = .ok entries

/-- The transaction that an operation has stored, judging by its answer. -/
def Operation.stored : Operation → Answer → Option Transaction
  | .store transaction, .done => some transaction
  | _, _ => none

/-- The transactions that a history has stored, in the order of arrival. -/
def accepted (H : DigestFunction) (start : L) (history : List Operation) : List Transaction :=
  (history.zip (runAll H start history).1).filterMap fun (operation, answer) =>
    operation.stored answer

/-- A block at a place of the chain was appended to the blocks before it by one of the operations,
over as many transactions as a power of two within the limit of that operation. -/
def Creates (H : DigestFunction) (start : L) (history : List Operation) (place : Nat)
    (block : Block) : Prop :=
  ∃ past maxExponent now future before made,
    history = past ++ .propose maxExponent now :: future ∧
    Lists (runAll H start past).2 before ∧ before.length = place ∧
    Lists (runAll H start (past ++ [.propose maxExponent now])).2 (before ++ [made]) ∧
    made.block.header = block.header ∧ made.block.first = block.first ∧
    made.block.last = block.last ∧
    ∃ exponent ≤ maxExponent, block.last.toNat + 1 - block.first.toNat = 2 ^ exponent

/-- After a history, a ledger lists a chain over the transactions that were stored, and each of
its blocks was made by one of the operations. -/
def Chained (H : DigestFunction) (start : L) (history : List Operation) : Prop :=
  ∃ covered entries, Lists (runAll H start history).2 entries ∧
    Ledger.size (runAll H start history).2 =
      .ok (UInt64.ofNat (accepted H start history).length) ∧
    Chain H (accepted H start history) covered entries ∧
    ∀ place entry, entries[place]? = some entry → Creates H start history place entry.block

end

section

variable {H : DigestFunction}

theorem lists_indexed (ledger : IndexedLedger) : Lists ledger ledger.entries := by
  intro take enough
  show Except.ok (((ledger.blocks.zipIdx.drop 0).take take).map _) = _
  rw [List.drop_zero, List.take_of_length_le (by simpa [IndexedLedger.entries] using enough)]
  rfl

theorem transactions_run {ledger : IndexedLedger} (sound : ledger.Sound H) (operation : Operation) :
    (operation.run H ledger).2.transactions =
      ledger.transactions ++ (operation.stored (operation.run H ledger).1).toList := by
  cases operation with
  | store transaction =>
    simp only [Operation.run, Ledger.store]
    cases accepted : ledger.store transaction with
    | error error => exact (List.append_nil _).symm
    | ok changed =>
      obtain ⟨_, _, rfl⟩ := IndexedLedger.of_store_eq_ok accepted
      rfl
  | propose maxExponent now =>
    have step := sound.advances (.propose maxExponent now)
    generalize (Operation.run H ledger (.propose maxExponent now)).2 = changed at step ⊢
    cases step <;> exact (List.append_nil _).symm
  | finalize name publication =>
    have step := sound.advances (.finalize name publication)
    generalize (Operation.run H ledger (.finalize name publication)).2 = changed at step ⊢
    cases step <;> exact (List.append_nil _).symm
  | transactionsOf name =>
    simp only [Operation.run, Ledger.transactionsOf]
    cases ledger.transactionsOf name <;> exact (List.append_nil _).symm
  | _ => exact (List.append_nil _).symm

theorem transactions_runAll {ledger : IndexedLedger} (sound : ledger.Sound H)
    (history : List Operation) :
    (runAll H ledger history).2.transactions = ledger.transactions ++ accepted H ledger history := by
  induction history generalizing ledger with
  | nil => exact (List.append_nil _).symm
  | cons operation rest inductionHypothesis =>
    have split : accepted H ledger (operation :: rest) =
        (operation.stored (operation.run H ledger).1).toList ++
          accepted H (operation.run H ledger).2 rest := by
      simp only [accepted, runAll, List.zip_cons_cons, List.filterMap_cons]
      cases operation.stored (operation.run H ledger).1 <;> rfl
    rw [split, ← List.append_assoc, ← transactions_run sound]
    exact inductionHypothesis (sound.run operation)

/-- A ledger that lists what the ledger in memory does, at any time, lists a chain. -/
theorem chained_of_lists {L : Type} [Ledger L] {start : L} {history : List Operation}
    (lists : ∀ past, past <+: history →
      Lists (runAll H start past).2 (runAll H IndexedLedger.empty past).2.entries)
    (answers : (runAll H start history).1 = (runAll H IndexedLedger.empty history).1)
    (size : Ledger.size (runAll H start history).2 =
      .ok (UInt64.ofNat (runAll H IndexedLedger.empty history).2.transactions.length)) :
    Chained H start history := by
  have transactions := transactions_runAll (IndexedLedger.sound_empty H) history
  have same : accepted H start history = accepted H IndexedLedger.empty history := by
    rw [accepted, answers, accepted]
  have stored : accepted H start history =
      (runAll H IndexedLedger.empty history).2.transactions := same.trans transactions.symm
  rw [← stored] at size
  have sound := (IndexedLedger.sound_empty H).runAll history
  have headed := IndexedLedger.headed_empty.runAll (IndexedLedger.sound_empty H) history
  refine ⟨_, _, lists history (List.prefix_refl _), size, stored ▸ sound.chain headed, ?_⟩
  intro place entry standing
  rw [IndexedLedger.getElem?_entries] at standing
  obtain ⟨block, blockStanding, rfl⟩ := Option.map_eq_some_iff.mp standing
  obtain ⟨past, maxExponent, now, future, made, rfl, length, extended, rest⟩ :=
    IndexedLedger.made_of_getElem? history blockStanding
  have after := lists (past ++ [.propose maxExponent now]) ⟨future, by simp⟩
  rw [extended, IndexedLedger.entries_extended] at after
  refine ⟨past, maxExponent, now, future, _, _, rfl, lists past (List.prefix_append _ _), ?_,
    after, rest⟩
  simpa [IndexedLedger.entries] using length

end

/-- After any history that started empty, a ledger in memory lists a chain over the transactions
that were stored, and so does a ledger in a table, as long as positions and lengths fit into
eight bytes. -/
theorem chained_of_empty (H : DigestFunction) (history : List Operation) :
    Chained H IndexedLedger.empty history ∧
      ((∀ operation ∈ history, operation.Fits) →
        (accepted H IndexedLedger.empty history).length < 2 ^ 64 →
        Chained H KeyedLedger.empty history) := by
  refine ⟨chained_of_lists (fun past _ => lists_indexed _) rfl rfl, fun operationsFit small => ?_⟩
  have transactions := transactions_runAll (IndexedLedger.sound_empty H) history
  rw [← show _ = accepted H IndexedLedger.empty history from transactions] at small
  refine chained_of_lists (fun past within take enough => ?_)
    (KeyedLedger.represents_runAll (List.prefix_refl _) operationsFit small).1
    (KeyedLedger.represents_runAll (List.prefix_refl _) operationsFit small).2.1.size_eq
  obtain ⟨_, represents, fits⟩ := KeyedLedger.represents_runAll within operationsFit small
  have sound := (IndexedLedger.sound_empty H).runAll past
  exact (represents.page_eq sound fits 0 take true).trans (lists_indexed _ take enough)

/-- A published block, and a pending one that was made under another limit. -/
theorem chained_of_empty_published :
    let H : DigestFunction := fun _ => Digest.zero
    let history : List Operation := [
      .store ⟨Digest.zero, .zero 16, 0, [1]⟩, .propose 0 0,
      .finalize Digest.zero (.logEntry Digest.zero),
      .store ⟨⟨List.replicate 32 1, rfl⟩, .zero 16, 1, [2]⟩, .propose 3 5]
    Chained H KeyedLedger.empty history := by
  intro H history
  refine (chained_of_empty H history).2 ?_ (by decide)
  simp only [history, List.forall_mem_cons, Operation.Fits, Transaction.Fits, Publication.Fits,
    true_and]
  exact ⟨by decide, by decide, fun operation member => by cases member⟩

end Ledger

end StreamLedger
