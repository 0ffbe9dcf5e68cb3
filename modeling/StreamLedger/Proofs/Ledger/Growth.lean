/-
This file says how the chain of a ledger grows. An entry that once stands in it stays at its place,
and the only thing that may still happen to it is that its publication comes, once. The next block
can always be made, since as many payloads as a power of two have a root, and a block that cannot be
published has been published already.
-/
import StreamLedger.Proofs.Ledger.Window
import StreamLedger.Proofs.Merkle

namespace StreamLedger

/-! ### Chains that grow -/

/-- What may become of an entry of the chain: at most its publication comes. -/
inductive BlockEntry.Becomes (entry : BlockEntry) : BlockEntry → Prop
  | same : entry.Becomes entry
  | published (pending : entry.block.publication = none) (publication : Publication) :
      entry.Becomes
        { entry with block := { entry.block with publication := some publication } }

namespace BlockEntry.Becomes

variable {entry after later : BlockEntry}

theorem trans (first : entry.Becomes after) (second : after.Becomes later) :
    entry.Becomes later := by
  cases first with
  | same => exact second
  | published pending publication =>
    cases second with
    | same => exact .published pending publication
    | published absurd _ => cases absurd

theorem header_eq (becomes : entry.Becomes after) : after.block.header = entry.block.header := by
  cases becomes <;> rfl

end BlockEntry.Becomes

namespace Ledger

/-- Every entry of a chain stands at its place of a later one. -/
def Grows (entries later : List BlockEntry) : Prop :=
  ∀ (place : Nat) (entry : BlockEntry), entries[place]? = some entry →
    ∃ after, later[place]? = some after ∧ entry.Becomes after

namespace Grows

variable {entries after later : List BlockEntry}

theorem refl (entries : List BlockEntry) : Grows entries entries :=
  fun _ entry standing => ⟨entry, standing, .same⟩

theorem trans (first : Grows entries after) (second : Grows after later) :
    Grows entries later := by
  intro place entry standing
  obtain ⟨middle, middleStanding, becomes⟩ := first place entry standing
  obtain ⟨last, lastStanding, becomesLast⟩ := second place middle middleStanding
  exact ⟨last, lastStanding, becomes.trans becomesLast⟩

theorem append (entries more : List BlockEntry) : Grows entries (entries ++ more) := by
  intro place entry standing
  have bound := (List.getElem?_eq_some_iff.mp standing).1
  exact ⟨entry, (List.getElem?_append_left bound).trans standing, .same⟩

/-- Headers stay where they are. -/
theorem isPrefix_map_header (grows : Grows entries later) :
    entries.map (·.block.header) <+: later.map (·.block.header) := by
  refine List.prefix_iff_getElem?.mpr fun place bound => ?_
  rw [List.length_map] at bound
  obtain ⟨after, standing, becomes⟩ := grows place _ (List.getElem?_eq_getElem bound)
  rw [List.getElem?_map, standing, List.getElem_map, Option.map_some, becomes.header_eq]

/-- If no two blocks share a name later, no two did before. -/
theorem distinct {H : DigestFunction} (grows : Grows entries later)
    (distinct : (later.map (·.block.digest H)).Nodup) :
    (entries.map (·.block.digest H)).Nodup := by
  have names := grows.isPrefix_map_header.map (Header.digest H)
  rw [List.map_map, List.map_map] at names
  exact distinct.sublist names.sublist

end Grows

/-- A ledger has become another that has one more block at most, which waits for its publication. -/
def OffersMore {L : Type} [Ledger L] (ledger changed : L) : Prop :=
  ∃ entries more, Lists ledger entries ∧ Lists changed (entries ++ more) ∧ more.length ≤ 1 ∧
    (∀ entry ∈ more, entry.block.publication = none) ∧
    (∀ id, Ledger.stream changed id = Ledger.stream ledger id) ∧
    Ledger.size changed = Ledger.size ledger

/-- What the ledger in memory shows is seen through a window. -/
theorem Window.offersMore {H : DigestFunction} {L : Type} [Ledger L] (window : Window H L)
    {ledger changed : L} {indexed indexedChanged : IndexedLedger}
    (seen : window.Sees ledger indexed) (seenChanged : window.Sees changed indexedChanged)
    (offers : OffersMore indexed indexedChanged) : OffersMore ledger changed := by
  obtain ⟨entries, more, lists, listsChanged, atMost, pending, streams, size⟩ := offers
  refine ⟨entries, more, ?_, ?_, atMost, pending, fun id => ?_, ?_⟩
  · rw [lists.unique (lists_indexed indexed)]
    exact window.lists seen
  · rw [listsChanged.unique (lists_indexed indexedChanged)]
    exact window.lists seenChanged
  · rw [window.stream_eq seen, window.stream_eq seenChanged]
    exact streams id
  · rw [window.size_eq seen, window.size_eq seenChanged]
    exact size

end Ledger

/-- A header can be made over as many payloads as a power of two, after a block that is
published. -/
theorem Header.exists_next {H : DigestFunction} {previous : Option Block} {payloads : List Bytes}
    (published : ∀ block ∈ previous, block.isFinalized = true) {exponent : Nat}
    (shape : payloads.length = 2 ^ exponent) (now : Int64) :
    ∃ header, Header.next H previous payloads now = .ok header := by
  have root : Merkle.root H payloads = .ok (Merkle.rootOf H payloads) := by
    rw [Merkle.root, shape, if_pos (Merkle.isPowerOfTwo_two_pow exponent)]
  cases previous with
  | none => exact ⟨_, by simp only [Header.next, root]; rfl⟩
  | some block =>
    obtain ⟨publication, receipt⟩ := Option.isSome_iff_exists.mp (published block rfl)
    exact ⟨_, by simp only [Header.next, root, receipt]; rfl⟩

namespace IndexedLedger

section

variable {H : DigestFunction} {ledger changed : IndexedLedger}

theorem Sound.entries_appended (sound : ledger.Sound H) (transaction : Transaction) :
    (ledger.appended transaction).entries = ledger.entries := by
  refine List.map_congr_left fun (block, place) member => ?_
  have here : block ∈ ledger.blocks :=
    List.mem_of_getElem? (List.mem_zipIdx_iff_getElem?.mp member)
  exact congrArg (BlockEntry.mk (place + 1) block) (sound.inBlock_appended transaction here)

/-- The last block is published, and no other changes. -/
theorem grows_published {earlier : List Block} {block : Block}
    (whole : ledger.blocks = earlier ++ [block]) (pending : block.publication = none)
    (publication : Publication) :
    Ledger.Grows ledger.entries
      { ledger with
        blocks := earlier ++ [{ block with publication := some publication }] }.entries := by
  intro place entry standing
  rw [getElem?_entries, whole, getElem?_append_singleton] at standing
  rw [getElem?_entries, getElem?_append_singleton]
  split at standing
  · rename_i final
    cases standing
    rw [if_pos final]
    exact ⟨_, rfl, .published pending publication⟩
  · rename_i notFinal
    rw [if_neg notFinal]
    exact ⟨entry, standing, .same⟩

theorem offersMore_refl (ledger : IndexedLedger) : Ledger.OffersMore ledger ledger := by
  refine ⟨ledger.entries, [], Ledger.lists_indexed ledger, ?_, Nat.zero_le _, nofun, fun _ => rfl,
    rfl⟩
  rw [List.append_nil]
  exact Ledger.lists_indexed ledger

theorem offersMore_extended (ledger : IndexedLedger) {block : Block}
    (pending : block.publication = none) : Ledger.OffersMore ledger (ledger.extended H block) := by
  have lists := Ledger.lists_indexed (ledger.extended H block)
  rw [entries_extended] at lists
  refine ⟨ledger.entries, _, Ledger.lists_indexed ledger, lists, Nat.le_refl _, ?_, fun _ => rfl,
    rfl⟩
  intro entry member
  rw [List.mem_singleton.mp member]
  exact pending

theorem Proposes.offersMore {maxExponent : Nat} {now : Int64} {proposal : Option Proposal}
    (proposes : Proposes H maxExponent now ledger proposal changed) :
    Ledger.OffersMore ledger changed := by
  cases proposes with
  | again last pending => exact offersMore_refl ledger
  | nothing settled idle => exact offersMore_refl ledger
  | next settled waiting made => exact offersMore_extended ledger rfl

/-! ### When the ledger refuses -/

/-- The next block takes as many transactions as a power of two. -/
theorem length_nextBatch (maxExponent : Nat)
    (waiting : Block.nextPosition ledger.blocks.getLast? <
      UInt64.ofNat ledger.transactions.length) :
    ∃ exponent, (ledger.slice (Block.nextPosition ledger.blocks.getLast?)
      (nextLast (Block.nextPosition ledger.blocks.getLast?)
        (UInt64.ofNat ledger.transactions.length) maxExponent)).length = 2 ^ exponent := by
  obtain ⟨ends, _, bound⟩ := nextLast_spec maxExponent waiting
  obtain ⟨exponent, _, size⟩ :=
    blockSize_eq_pow maxExponent (Nat.sub_pos_of_lt (UInt64.lt_iff_toNat_lt.mp waiting))
  have total := toNat_ofNat_le ledger.transactions.length
  refine ⟨exponent, ?_⟩
  rw [length_slice (by omega)]
  omega

theorem exists_extend (maxExponent : Nat) (now : Int64)
    (settled : ∀ block ∈ ledger.blocks.getLast?, block.isFinalized = true) :
    ∃ result, ledger.extend H maxExponent now ledger.blocks.getLast? = .ok result := by
  simp only [extend]
  split
  · exact ⟨_, rfl⟩
  · rename_i waiting
    obtain ⟨exponent, shape⟩ := length_nextBatch maxExponent (UInt64.not_le.mp waiting)
    rw [← List.length_map (·.payload)] at shape
    obtain ⟨header, made⟩ := Header.exists_next (H := H) settled shape now
    rw [nextLast] at made
    rw [made]
    exact ⟨_, rfl⟩

/-- A ledger can always say what block comes next. -/
theorem exists_propose (ledger : IndexedLedger) (maxExponent : Nat) (now : Int64) :
    ∃ result, ledger.propose H maxExponent now = .ok result := by
  simp only [propose]
  split
  · rename_i block last
    split
    · rename_i finalized
      rw [← last]
      refine exists_extend maxExponent now fun other member => ?_
      rw [last] at member
      cases member
      exact finalized
    · exact ⟨_, rfl⟩
  · rename_i none
    rw [← none]
    refine exists_extend maxExponent now fun other member => ?_
    rw [none] at member
    cases member

/-- The publication of a block is refused only if a block with its name has one. -/
theorem Sound.of_finalize_eq_error (sound : ledger.Sound H) {block : Block}
    (member : block ∈ ledger.blocks) {publication : Publication} {error : LedgerError}
    (refused : ledger.finalize (block.digest H) publication = .error error) :
    error = .notPending (block.digest H) ∧
      ∃ other ∈ ledger.blocks, other.digest H = block.digest H ∧ other.isFinalized = true := by
  obtain ⟨place, standing⟩ := List.mem_iff_getElem?.mp member
  obtain ⟨later, _, found⟩ := sound.latest place block standing
  obtain ⟨other, otherStanding, same⟩ := sound.named _ _ found
  simp only [finalize, found, otherStanding] at refused
  split at refused
  · rename_i finalized
    cases refused
    exact ⟨rfl, other, List.mem_of_getElem? otherStanding, same, finalized⟩
  · cases refused

end

end IndexedLedger

end StreamLedger
