/-
This file proves that what a ledger has recorded stays recorded. Its transactions, each of its
streams and its chain are the beginning of what they are later, an operation at a time. So a
transaction keeps its position and its block, to which at most a publication comes, and no status
goes down.
-/
import StreamLedger.Proofs.Ledger.Growth
import StreamLedger.Proofs.Status

namespace StreamLedger

/-! ### What may become of a block -/

/-- At most the publication of a block comes. -/
inductive Block.Becomes (block : Block) : Block → Prop
  | same : block.Becomes block
  | published (pending : block.publication = none) (publication : Publication) :
      block.Becomes { block with publication := some publication }

theorem Block.Becomes.contains_eq {block after : Block} (becomes : block.Becomes after)
    (position : UInt64) : after.contains position = block.contains position := by
  cases becomes <;> rfl

theorem Block.Becomes.isFinalized {block after : Block} (becomes : block.Becomes after)
    (finalized : block.isFinalized = true) : after.isFinalized = true := by
  cases becomes with
  | same => exact finalized
  | published => rfl

theorem BlockEntry.Becomes.block {entry after : BlockEntry} (becomes : entry.Becomes after) :
    entry.block.Becomes after.block := by
  cases becomes with
  | same => exact .same
  | published pending publication => exact .published pending publication

/-! ### The ledger in memory -/

namespace IndexedLedger

variable {H : DigestFunction} {ledger later final : IndexedLedger}

/-- What is recorded in a ledger is the beginning of what is recorded in a later one. -/
structure Continues (ledger later : IndexedLedger) : Prop where
  transactions : ledger.transactions <+: later.transactions
  streams : ∀ id, ledger.stream id <+: later.stream id
  entries : Ledger.Grows ledger.entries later.entries

namespace Continues

theorem refl (ledger : IndexedLedger) : Continues ledger ledger :=
  ⟨List.prefix_refl _, fun _ => List.prefix_refl _, .refl _⟩

theorem trans (first : Continues ledger later) (second : Continues later final) :
    Continues ledger final :=
  ⟨first.transactions.trans second.transactions,
    fun id => (first.streams id).trans (second.streams id), first.entries.trans second.entries⟩

end Continues

/-- A new transaction comes at the end of its stream, and every other stream is as it was. -/
theorem Sound.stream_appended (sound : ledger.Sound H) (transaction : Transaction)
    (id : StreamId) :
    (ledger.appended transaction).stream id =
      ledger.stream id ++ if id = transaction.stream then [transaction] else [] := by
  have earlier : (ledger.positionsOf id).filterMap
      (fun position => (ledger.transactions ++ [transaction])[position]?) = ledger.stream id := by
    refine List.filterMap_congr fun position member => ?_
    exact List.getElem?_append_left (sound.lt_of_mem_positionsOf member)
  show ((ledger.appended transaction).positionsOf id).filterMap
    (fun position => (ledger.transactions ++ [transaction])[position]?) = _
  rw [positionsOf_appended]
  split
  · rename_i same
    rw [← same, List.filterMap_append, earlier]
    simp
  · rw [earlier, List.append_nil]

theorem Sound.continues_run (sound : ledger.Sound H) (operation : Ledger.Operation) :
    Continues ledger (operation.run H ledger).2 := by
  have step := sound.advances operation
  generalize (operation.run H ledger).2 = changed at step ⊢
  cases step with
  | kept => exact .refl ledger
  | appended inOrder fresh =>
    refine ⟨List.prefix_append _ _, fun id => ?_, ?_⟩
    · rw [sound.stream_appended]
      exact List.prefix_append _ _
    · rw [sound.entries_appended]
      exact .refl _
  | extended settled waiting made =>
    refine ⟨List.prefix_refl _, fun id => List.prefix_refl _, ?_⟩
    rw [entries_extended]
    exact .append _ _
  | finalized whole pending digest =>
    exact ⟨List.prefix_refl _, fun id => List.prefix_refl _, grows_published whole pending _⟩

theorem Sound.continues_runAll (sound : ledger.Sound H) (history : List Ledger.Operation) :
    Continues ledger (Ledger.runAll H ledger history).2 := by
  induction history generalizing ledger with
  | nil => exact .refl ledger
  | cons operation rest inductionHypothesis =>
    exact (sound.continues_run operation).trans (inductionHypothesis (sound.run operation))

/-! ### What later answers are -/

theorem status_cases (ledger : IndexedLedger) (name : Digest) :
    ledger.status name = .unknown ∨ ledger.status name = .committed ∨
      ledger.status name = .finalized := by
  unfold status
  split
  · exact Or.inl rfl
  · split
    · split
      · exact Or.inr (Or.inr rfl)
      · exact Or.inr (Or.inl rfl)
    · exact Or.inr (Or.inl rfl)

theorem status_eq_finalized_iff (name : Digest) :
    ledger.status name = .finalized ↔
      ∃ block, ledger.blockOf name = some block ∧ block.isFinalized = true := by
  unfold status blockOf
  cases ledger.positions.lookup name with
  | none => simp
  | some position =>
    cases covers : ledger.covering position with
    | none => simp [covers]
    | some block => simp [covers]

namespace Continues

theorem lookup_positions (continues : Continues ledger later) (sound : ledger.Sound H)
    (soundLater : later.Sound H) {name : Digest} {position : Nat}
    (found : ledger.positions.lookup name = some position) :
    later.positions.lookup name = some position := by
  obtain ⟨more, whole⟩ := continues.transactions
  have bound := sound.lt_of_lookup found
  rw [sound.positions] at found
  rw [soundLater.positions, ← whole, List.getElem?_append_left bound, found]

theorem covering (continues : Continues ledger later) (sound : ledger.Sound H)
    (soundLater : later.Sound H) {position : Nat} {block : Block}
    (covers : ledger.covering position = some block) :
    ∃ after, later.covering position = some after ∧ block.Becomes after := by
  obtain ⟨member, within⟩ := sound.covering_eq_some_iff_contains.mp covers
  obtain ⟨place, standing⟩ := List.mem_iff_getElem?.mp member
  obtain ⟨after, afterStanding, becomes⟩ := continues.entries place ⟨place + 1, block, _⟩
    (by rw [getElem?_entries, standing]; rfl)
  have afterMember : after.block ∈ later.blocks :=
    (mem_entries (List.mem_of_getElem? afterStanding)).1
  refine ⟨after.block, soundLater.covering_eq_some_iff_contains.mpr ⟨afterMember, ?_⟩,
    becomes.block⟩
  rw [becomes.block.contains_eq, within]

theorem blockOf (continues : Continues ledger later) (sound : ledger.Sound H)
    (soundLater : later.Sound H) {name : Digest} {block : Block}
    (found : ledger.blockOf name = some block) :
    ∃ after, later.blockOf name = some after ∧ block.Becomes after := by
  obtain ⟨position, located, covers⟩ := Option.bind_eq_some_iff.mp found
  obtain ⟨after, coversLater, becomes⟩ := continues.covering sound soundLater covers
  refine ⟨after, ?_, becomes⟩
  rw [IndexedLedger.blockOf, continues.lookup_positions sound soundLater located]
  exact coversLater

/-- A transaction that is known stays known, and one that is finalized stays finalized. -/
theorem status_le (continues : Continues ledger later) (sound : ledger.Sound H)
    (soundLater : later.Sound H) (name : Digest) : ledger.status name ≤ later.status name := by
  rcases ledger.status_cases name with unknown | committed | finalized
  · rw [unknown]
    exact Status.unknown_le _
  · obtain ⟨position, found⟩ : ∃ position, ledger.positions.lookup name = some position := by
      refine Option.ne_none_iff_exists'.mp fun absent => ?_
      rw [(status_eq_unknown_iff name).mpr absent] at committed
      cases committed
    have known : later.status name ≠ .unknown := fun unknown => by
      have located := continues.lookup_positions sound soundLater found
      rw [(status_eq_unknown_iff name).mp unknown] at located
      cases located
    rw [committed]
    rcases later.status_cases name with unknown | committedLater | finalizedLater
    · exact absurd unknown known
    · exact committedLater ▸ Status.le_refl _
    · exact finalizedLater ▸ Status.le_finalized _
  · obtain ⟨block, found, published⟩ := (status_eq_finalized_iff name).mp finalized
    obtain ⟨after, foundLater, becomes⟩ := continues.blockOf sound soundLater found
    rw [(status_eq_finalized_iff name).mpr ⟨after, foundLater, becomes.isFinalized published⟩]
    exact Status.le_finalized _

end Continues

end IndexedLedger

/-! ### Both kinds of ledgers -/

namespace Ledger

variable {L : Type} [Ledger L] {H : DigestFunction}

/-- All that a ledger answers still holds of a later one: each stream begins as it did, each entry
of the chain stands at its place, each transaction is in the block it was in, and no status is
lower. At most a publication has come to a block that had none. -/
structure AppendOnly (ledger later : L) : Prop where
  streams : ∀ id, ∃ before after, Ledger.stream ledger id = .ok before ∧
    Ledger.stream later id = .ok after ∧ before <+: after
  chain : ∃ before after, Lists ledger before ∧ Lists later after ∧ Grows before after
  blocks : ∀ name block, Ledger.blockOf ledger name = .ok (some block) →
    ∃ after, Ledger.blockOf later name = .ok (some after) ∧ block.Becomes after
  statuses : ∀ name, ∃ before after, Ledger.status ledger name = .ok before ∧
    Ledger.status later name = .ok after ∧ before ≤ after

theorem Window.appendOnly (window : Window H L) {ledger later : L}
    {indexed changed : IndexedLedger} (seen : window.Sees ledger indexed)
    (seenLater : window.Sees later changed) (continues : indexed.Continues changed) :
    AppendOnly ledger later where
  streams id :=
    ⟨_, _, window.stream_eq seen id, window.stream_eq seenLater id, continues.streams id⟩
  chain := ⟨_, _, window.lists seen, window.lists seenLater, continues.entries⟩
  blocks name block found := by
    rw [window.blockOf_eq seen] at found
    obtain ⟨after, foundLater, becomes⟩ :=
      continues.blockOf (window.sound seen) (window.sound seenLater) (Except.ok.inj found)
    exact ⟨after, (window.blockOf_eq seenLater name).trans (congrArg Except.ok foundLater), becomes⟩
  statuses name :=
    ⟨_, _, window.status_eq seen name, window.status_eq seenLater name,
      continues.status_le (window.sound seen) (window.sound seenLater) name⟩

/-- Whatever a ledger in memory is asked for, nothing that it has recorded is lost, and so it is
with a ledger in a table, as long as positions and lengths fit into eight bytes. -/
theorem appendOnly_of_empty (H : DigestFunction) (past future : List Operation) :
    AppendOnly (runAll H IndexedLedger.empty past).2
        (runAll H (runAll H IndexedLedger.empty past).2 future).2 ∧
      ((∀ operation ∈ past ++ future, operation.Fits) →
        (accepted H IndexedLedger.empty (past ++ future)).length < 2 ^ 64 →
        AppendOnly (runAll H KeyedLedger.empty past).2
          (runAll H (runAll H KeyedLedger.empty past).2 future).2) := by
  have sound := (IndexedLedger.sound_empty H).runAll past
  have continues := sound.continues_runAll future
  refine ⟨(IndexedLedger.window H).appendOnly (sees_indexed_runAll past)
    ⟨rfl, sound.runAll future⟩ continues, fun operationsFit small => ?_⟩
  rw [← transactions_of_empty, runAll_append] at small
  obtain ⟨pastFit, futureFit⟩ := List.forall_mem_append.mp operationsFit
  obtain ⟨seen, _⟩ :=
    sees_keyed_runAll pastFit (Nat.lt_of_le_of_lt (sound.length_le_runAll future) small)
  obtain ⟨_, seenLater⟩ := KeyedLedger.sees_runAll seen futureFit small
  exact (KeyedLedger.window H).appendOnly seen seenLater continues

/-- A pending block is published, and another transaction comes. -/
theorem appendOnly_of_empty_published :
    let H : DigestFunction := fun bytes => ⟨UInt8.ofNat bytes.length :: List.replicate 31 0, rfl⟩
    let name := Header.digest H ⟨Digest.zero, Digest.zero, H [1], 0⟩
    let past : List Operation := [.store ⟨H [1], .zero 16, 0, [1]⟩, .propose 0 0]
    let future : List Operation := [
      .store ⟨H [2, 2], .zero 16, 1, [2, 2]⟩, .finalize name (.logEntry name), .propose 3 20]
    AppendOnly (runAll H KeyedLedger.empty past).2
      (runAll H (runAll H KeyedLedger.empty past).2 future).2 := by
  intro H name past future
  refine (appendOnly_of_empty H past future).2 ?_ (by decide +kernel)
  simp [past, future, Operation.Fits, Transaction.Fits, Publication.Fits]

end Ledger

end StreamLedger
