/-
This file proves that the name of a ledger's last block commits to the history before it. A header
contains the name of the block before and the digest of that block's publication, so two chains
whose last blocks share a name are walked back together, header by header, until both begin. This
fails only if two different byte strings have one digest, or if a block is named zero, which is
also what the first header refers to.
-/
import StreamLedger.Proofs.Ledger.Window
import StreamLedger.Proofs.Merkle.Commitment

namespace StreamLedger

/-! ### Publications that can be written -/

namespace IndexedLedger

variable {H : DigestFunction} {ledger : IndexedLedger}

/-- Blocks carry only publications that operations brought along. -/
theorem Sound.blocks_fit_run (sound : Sound H ledger) (fit : ∀ block ∈ ledger.blocks, block.Fits)
    {operation : Ledger.Operation} (operationFits : operation.Fits) :
    ∀ block ∈ (operation.run H ledger).2.blocks, block.Fits := by
  have step := sound.advances operation
  generalize (operation.run H ledger).2 = changed at step ⊢
  cases step with
  | kept => exact fit
  | appended inOrder fresh => exact fit
  | extended settled waiting made =>
    intro block member
    rcases List.mem_append.mp member with member | member
    · exact fit block member
    · rw [List.mem_singleton.mp member]
      exact nextBlock_fits _ _
  | finalized whole pending digest =>
    intro block member
    rcases List.mem_append.mp member with member | member
    · exact fit block (whole ▸ List.mem_append_left _ member)
    · rw [List.mem_singleton.mp member]
      intro publication published
      cases published
      exact operationFits

theorem Sound.blocks_fit_runAll (sound : Sound H ledger) (fit : ∀ block ∈ ledger.blocks, block.Fits)
    {history : List Ledger.Operation} (operationsFit : ∀ operation ∈ history, operation.Fits) :
    ∀ block ∈ (Ledger.runAll H ledger history).2.blocks, block.Fits := by
  induction history generalizing ledger with
  | nil => exact fit
  | cons operation rest inductionHypothesis =>
    obtain ⟨operationFits, restFit⟩ := List.forall_mem_cons.mp operationsFit
    exact inductionHypothesis (sound.run operation) (sound.blocks_fit_run fit operationFits) restFit

end IndexedLedger

namespace Ledger

/-! ### Chains of ledgers -/

/-- A chain that a ledger of either kind lists after some history that started empty. -/
inductive Reached (H : DigestFunction) (entries : List BlockEntry) : Prop
  | inMemory (history : List Operation) (operationsFit : ∀ operation ∈ history, operation.Fits)
      (lists : Lists (runAll H IndexedLedger.empty history).2 entries)
  | inTable (history : List Operation) (operationsFit : ∀ operation ∈ history, operation.Fits)
      (small : (accepted H IndexedLedger.empty history).length < 2 ^ 64)
      (lists : Lists (runAll H KeyedLedger.empty history).2 entries)

variable {H : DigestFunction} {entries first second : List BlockEntry}
  {transactions otherTransactions : List Transaction} {covered otherCovered : Nat}

/-- What a history leads to in memory is listed by the ledger in a table, too. -/
theorem reached_inTable (history : List Operation)
    (operationsFit : ∀ operation ∈ history, operation.Fits)
    (small : (accepted H IndexedLedger.empty history).length < 2 ^ 64) :
    Reached H (runAll H IndexedLedger.empty history).2.entries :=
  .inTable history operationsFit small
    ((KeyedLedger.window H).lists (sees_keyed_of_accepted operationsFit small))

/-- Both kinds list what the ledger in memory has. -/
theorem Reached.exists_history (reached : Reached H entries) :
    ∃ history : List Operation, (∀ operation ∈ history, operation.Fits) ∧
      entries = (runAll H IndexedLedger.empty history).2.entries := by
  cases reached with
  | inMemory history operationsFit lists =>
    exact ⟨history, operationsFit, lists.unique (lists_indexed _)⟩
  | inTable history operationsFit small lists =>
    have seen := sees_keyed_of_accepted operationsFit small
    exact ⟨history, operationsFit, lists.unique ((KeyedLedger.window H).lists seen)⟩

theorem Reached.chain (reached : Reached H entries) :
    (∃ transactions covered, Chain H transactions covered entries) ∧
      ∀ entry ∈ entries, entry.block.Fits := by
  obtain ⟨history, operationsFit, rfl⟩ := reached.exists_history
  have sound := (IndexedLedger.sound_empty H).runAll history
  have headed := IndexedLedger.headed_empty.runAll (IndexedLedger.sound_empty H) history
  refine ⟨⟨_, _, sound.chain headed⟩, fun entry member => ?_⟩
  exact (IndexedLedger.sound_empty H).blocks_fit_runAll nofun operationsFit _
    (IndexedLedger.mem_entries member).1

/-! ### What is digested for a chain -/

/-- The byte strings that are digested for the names of a chain's blocks, for the publications that
its headers refer to, and for its Merkle roots. -/
def digested (H : DigestFunction) (entries : List BlockEntry) : List Bytes :=
  entries.map (fun entry => Header.format.encode entry.block.header) ++
    entries.dropLast.filterMap
      (fun entry => entry.block.publication.map Publication.format.encode) ++
    entries.flatMap fun entry => Merkle.rootStrings H (entry.transactions.map (·.payload))

theorem header_mem_digested {entry : BlockEntry} (member : entry ∈ entries) :
    Header.format.encode entry.block.header ∈ digested H entries :=
  List.mem_append_left _ (List.mem_append_left _ (List.mem_map_of_mem member))

theorem publication_mem_digested {entry : BlockEntry} {publication : Publication}
    (member : entry ∈ entries.dropLast) (published : entry.block.publication = some publication) :
    Publication.format.encode publication ∈ digested H entries := by
  refine List.mem_append_left _ (List.mem_append_right _ ?_)
  exact List.mem_filterMap.mpr ⟨entry, member, congrArg (Option.map _) published⟩

theorem rootStrings_subset_digested {entry : BlockEntry} (member : entry ∈ entries) :
    Merkle.rootStrings H (entry.transactions.map (·.payload)) ⊆ digested H entries :=
  fun _ stringMember =>
    List.mem_append_right _ (List.mem_flatMap.mpr ⟨entry, member, stringMember⟩)

/-! ### Walking back -/

/-- The name of the last block, or zero, as the next header refers to it. -/
def tip (H : DigestFunction) (entries : List BlockEntry) : Digest :=
  (entries.getLast?.map (·.block.digest H)).getD Digest.zero

theorem tip_append_singleton (entries : List BlockEntry) (entry : BlockEntry) :
    tip H (entries ++ [entry]) = entry.block.digest H := by
  rw [tip, List.getLast?_concat, Option.map_some, Option.getD_some]

/-- Each header refers to the end of the chain before it. -/
theorem previousHeader_eq (chain : Chain H transactions covered entries)
    {earlier : List BlockEntry} {entry : BlockEntry} (within : earlier ++ [entry] <+: entries) :
    entry.block.header.previousHeader = tip H earlier := by
  obtain ⟨later, rfl⟩ := within
  induction earlier using List.reverseRecOn with
  | nil => exact (chain.genesis entry rfl).1
  | append_singleton earlier previous _ =>
    rw [tip_append_singleton]
    exact (chain.linked earlier.length previous entry (by simp) (by simp)).1

theorem header_eq_of_digest_eq (distinct : ¬ Collides H (digested H first ++ digested H second))
    {entry other : BlockEntry} (member : entry ∈ first) (otherMember : other ∈ second)
    (same : entry.block.digest H = other.block.digest H) :
    entry.block.header = other.block.header := by
  refine (Header.format_returns _).eq_of_encode_eq (Header.format_returns _) ?_
  exact eq_of_digest_eq distinct (List.mem_append_left _ (header_mem_digested member))
    (List.mem_append_right _ (header_mem_digested otherMember)) same

/-- Beginnings of two chains that end with one name have the same headers: the last headers are
equal, so they refer to one name, with which the beginnings before them end. -/
theorem headers_eq_of_tip_eq (firstChain : Chain H transactions covered first)
    (secondChain : Chain H otherTransactions otherCovered second)
    (distinct : ¬ Collides H (digested H first ++ digested H second))
    (nonzero : ∀ entry ∈ first ++ second, entry.block.digest H ≠ Digest.zero)
    {earlier others : List BlockEntry} (begins : earlier <+: first)
    (othersBegin : others <+: second) (same : tip H earlier = tip H others) :
    earlier.map (·.block.header) = others.map (·.block.header) := by
  induction earlier using List.reverseRecOn generalizing others with
  | nil =>
    cases others using List.reverseRecOn with
    | nil => rfl
    | append_singleton others other _ =>
      -- A chain that has ended is not continued by a block named zero.
      rw [tip_append_singleton] at same
      have otherMember : other ∈ second := othersBegin.subset (by simp)
      exact absurd same.symm (nonzero other (List.mem_append_right _ otherMember))
  | append_singleton earlier entry inductionHypothesis =>
    have member : entry ∈ first := begins.subset (by simp)
    rw [tip_append_singleton] at same
    cases others using List.reverseRecOn with
    | nil => exact absurd same (nonzero entry (List.mem_append_left _ member))
    | append_singleton others other _ =>
      have otherMember : other ∈ second := othersBegin.subset (by simp)
      rw [tip_append_singleton] at same
      have header := header_eq_of_digest_eq distinct member otherMember same
      have tips : tip H earlier = tip H others := by
        rw [← previousHeader_eq firstChain begins, header,
          previousHeader_eq secondChain othersBegin]
      have rest := inductionHypothesis ((List.prefix_append _ _).trans begins)
        ((List.prefix_append _ _).trans othersBegin) tips
      rw [List.map_append, List.map_append, rest, List.map_singleton, List.map_singleton, header]

/-! ### What two chains share -/

/-- Two chains have the same headers, the same publications as far as later headers refer to them,
and the same payloads in blocks of the same size. -/
structure SharesHistory (first second : List BlockEntry) : Prop where
  headers : first.map (·.block.header) = second.map (·.block.header)
  publications : ∀ (place : Nat) (entry other : BlockEntry), first[place]? = some entry →
    second[place]? = some other → place + 1 < first.length →
    entry.block.publication = other.block.publication
  payloads : ∀ (place : Nat) (entry other : BlockEntry), first[place]? = some entry →
    second[place]? = some other → entry.transactions.length = other.transactions.length →
    entry.transactions.map (·.payload) = other.transactions.map (·.payload)

theorem header_eq_of_getElem? (headers : first.map (·.block.header) = second.map (·.block.header))
    {place : Nat} {entry other : BlockEntry} (standing : first[place]? = some entry)
    (otherStanding : second[place]? = some other) : entry.block.header = other.block.header := by
  have same := congrArg (·[place]?) headers
  simp only [List.getElem?_map, standing, otherStanding, Option.map_some, Option.some.injEq] at same
  exact same

theorem mem_dropLast_of_getElem? {place : Nat} {entry : BlockEntry}
    (standing : entries[place]? = some entry) (notLast : place + 1 < entries.length) :
    entry ∈ entries.dropLast := by
  have kept : entries.dropLast[place]? = some entry := by
    rw [List.getElem?_dropLast, if_pos (Nat.lt_sub_of_add_lt notLast), standing]
  exact List.mem_of_getElem? kept

/-- The header after a block refers to its publication. -/
theorem publication_eq (firstChain : Chain H transactions covered first)
    (secondChain : Chain H otherTransactions otherCovered second)
    (firstFit : ∀ entry ∈ first, entry.block.Fits) (secondFit : ∀ entry ∈ second, entry.block.Fits)
    (distinct : ¬ Collides H (digested H first ++ digested H second))
    (headers : first.map (·.block.header) = second.map (·.block.header)) {place : Nat}
    {entry other : BlockEntry} (standing : first[place]? = some entry)
    (otherStanding : second[place]? = some other) (notLast : place + 1 < first.length) :
    entry.block.publication = other.block.publication := by
  have lengths : first.length = second.length := by simpa using congrArg List.length headers
  have later := List.getElem?_eq_getElem notLast
  have otherLater := List.getElem?_eq_getElem (lengths ▸ notLast)
  obtain ⟨_, publication, published, refers⟩ := firstChain.linked place _ _ standing later
  obtain ⟨_, otherPublication, otherPublished, otherRefers⟩ :=
    secondChain.linked place _ _ otherStanding otherLater
  have same : publication.digest H = otherPublication.digest H := by
    rw [← refers, header_eq_of_getElem? headers later otherLater, otherRefers]
  have encoded : Publication.format.encode publication =
      Publication.format.encode otherPublication :=
    eq_of_digest_eq distinct
      (List.mem_append_left _
        (publication_mem_digested (mem_dropLast_of_getElem? standing notLast) published))
      (List.mem_append_right _ (publication_mem_digested
        (mem_dropLast_of_getElem? otherStanding (lengths ▸ notLast)) otherPublished)) same
  have fits := firstFit entry (List.mem_of_getElem? standing) publication published
  have otherFits := secondFit other (List.mem_of_getElem? otherStanding) _ otherPublished
  rw [published, otherPublished,
    (Publication.format_returns fits).eq_of_encode_eq (Publication.format_returns otherFits) encoded]

/-- A header's root is over as many payloads as the block has, so it tells them from others of the
same number. -/
theorem payloads_eq (firstChain : Chain H transactions covered first)
    (secondChain : Chain H otherTransactions otherCovered second)
    (distinct : ¬ Collides H (digested H first ++ digested H second)) {entry other : BlockEntry}
    (member : entry ∈ first) (otherMember : other ∈ second)
    (header : entry.block.header = other.block.header)
    (lengths : entry.transactions.length = other.transactions.length) :
    entry.transactions.map (·.payload) = other.transactions.map (·.payload) := by
  obtain ⟨size, root⟩ := Merkle.of_root_eq_ok (firstChain.roots entry member)
  obtain ⟨_, otherRoot⟩ := Merkle.of_root_eq_ok (secondChain.roots other otherMember)
  have otherSize : (other.transactions.map (·.payload)).length =
      2 ^ Nat.log2 (entry.transactions.map (·.payload)).length := by
    rw [← size, List.length_map, List.length_map, lengths]
  refine Merkle.eq_of_rootOf_eq distinct size otherSize
    (List.Subset.trans (rootStrings_subset_digested member) (List.subset_append_left _ _))
    (List.Subset.trans (rootStrings_subset_digested otherMember) (List.subset_append_right _ _)) ?_
  rw [root, otherRoot, header]

/-- The name of the last block commits to the history before it, unless there is a collision among
what was digested for the two chains or a block is named zero. -/
theorem sharesHistory_of_lastName_eq (firstReached : Reached H first)
    (secondReached : Reached H second)
    (same : first.getLast?.map (·.block.digest H) = second.getLast?.map (·.block.digest H))
    (distinct : ¬ Collides H (digested H first ++ digested H second))
    (nonzero : ∀ entry ∈ first ++ second, entry.block.digest H ≠ Digest.zero) :
    SharesHistory first second := by
  obtain ⟨⟨_, _, firstChain⟩, firstFit⟩ := firstReached.chain
  obtain ⟨⟨_, _, secondChain⟩, secondFit⟩ := secondReached.chain
  have headers : first.map (·.block.header) = second.map (·.block.header) :=
    headers_eq_of_tip_eq firstChain secondChain distinct nonzero
      (List.prefix_refl first) (List.prefix_refl second) (congrArg (·.getD Digest.zero) same)
  refine ⟨headers, fun place entry other standing otherStanding notLast => ?_,
    fun place entry other standing otherStanding lengths => ?_⟩
  · exact publication_eq firstChain secondChain firstFit secondFit distinct headers
      standing otherStanding notLast
  · exact payloads_eq firstChain secondChain distinct
      (List.mem_of_getElem? standing) (List.mem_of_getElem? otherStanding)
      (header_eq_of_getElem? headers standing otherStanding) lengths

/-- Two blocks in memory, and the same two in a table that has other streams, one more transaction
and a publication of the second block. -/
theorem sharesHistory_of_lastName_eq_streams :
    let H : DigestFunction := fun bytes =>
      ⟨bytes.foldl (fun sum byte => 31 * sum + byte) 7 :: List.replicate 31 0, rfl⟩
    let firstName := Header.digest H ⟨Digest.zero, Digest.zero, H [1], 10⟩
    let receipt := Publication.logEntry firstName
    let secondName := Header.digest H ⟨firstName, receipt.digest H, H [2], 20⟩
    let first : List Operation := [
      .store ⟨H [1], .zero 16, 0, [1]⟩, .store ⟨H [2], .zero 16, 1, [2]⟩, .propose 0 10,
      .finalize firstName receipt, .propose 3 20]
    let second : List Operation := [
      .store ⟨H [3], .zero 16, 0, [1]⟩, .propose 2 10, .finalize firstName receipt,
      .store ⟨H [4], ⟨List.replicate 16 1, rfl⟩, 0, [2]⟩, .propose 0 20,
      .store ⟨H [5], .zero 16, 1, [6]⟩, .finalize secondName (.logEntry secondName)]
    let entries := (runAll H IndexedLedger.empty first).2.entries
    let others := (runAll H IndexedLedger.empty second).2.entries
    entries.getLast?.map (·.block.digest H) = others.getLast?.map (·.block.digest H) ∧
      entries ≠ others ∧ SharesHistory entries others := by
  intro H firstName receipt secondName first second entries others
  have same : entries.getLast?.map (·.block.digest H) = others.getLast?.map (·.block.digest H) := by
    decide +kernel
  have firstFit : ∀ operation ∈ first, operation.Fits := by
    simp [first, receipt, Operation.Fits, Transaction.Fits, Publication.Fits]
  have secondFit : ∀ operation ∈ second, operation.Fits := by
    simp [second, receipt, Operation.Fits, Transaction.Fits, Publication.Fits]
  exact ⟨same, by decide +kernel,
    sharesHistory_of_lastName_eq (.inMemory first firstFit (lists_indexed _))
      (reached_inTable second secondFit (by decide +kernel)) same (by decide +kernel)
      (by decide +kernel)⟩

end Ledger

end StreamLedger
