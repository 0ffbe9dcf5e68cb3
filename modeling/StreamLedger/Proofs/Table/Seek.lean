/-
This file says what a seek in a table finds: the value under the smallest stored key that is at or
after the start and begins with the stem. Only the next key of the whole table is looked at, and a
seek gives up if that key does not begin with the stem. It misses nothing by that, since the keys
that begin with a stem stand together and the start is one of them: after a key that has left the
stem none comes back to it.
-/
import StreamLedger.Proofs.Table
import StreamLedger.Table.Key

namespace StreamLedger

namespace Table

/-! ### The first of the stored keys -/

/-- Of the stored keys that are wanted this is the smallest, and the value stands under it. -/
structure First (table : Table) (wanted : Bytes → Prop) (key value : Bytes) : Prop where
  stored : table.get? key = some value
  meets : wanted key
  least : ∀ other, table.contains other = true → wanted other → key ≤ other

variable {table : Table} {wanted : Bytes → Prop} {key value otherKey otherValue : Bytes}

theorem contains_of_get? (stored : table.get? key = some value) : table.contains key = true := by
  rw [contains, stored, Option.isSome_some]

theorem contains_iff (table : Table) (key : Bytes) :
    table.contains key = true ↔ ∃ value, (key, value) ∈ table.entries := by
  simp only [contains, Option.isSome_iff_exists, mem_entries_iff]

theorem First.unique (first : table.First wanted key value)
    (second : table.First wanted otherKey otherValue) : key = otherKey ∧ value = otherValue := by
  obtain rfl : key = otherKey := List.le_antisymm
    (first.least _ (contains_of_get? second.stored) second.meets)
    (second.least _ (contains_of_get? first.stored) first.meets)
  exact ⟨rfl, Option.some.inj (first.stored.symm.trans second.stored)⟩

/-- What a scan of the entries meets first has the smallest key. -/
theorem first_of_find? [DecidablePred wanted]
    (found : table.entries.find? (fun entry => decide (wanted entry.1)) = some (key, value)) :
    table.First wanted key value := by
  obtain ⟨here, before, after, split, earlier⟩ := List.find?_eq_some_iff_append.mp found
  refine ⟨?_, of_decide_eq_true here, fun other stored otherWanted => ?_⟩
  · rw [← mem_entries_iff, split]
    exact List.mem_append_right _ List.mem_cons_self
  obtain ⟨otherValue, member⟩ := (contains_iff table other).mp stored
  have ascending := table.ascending
  rw [split] at member ascending
  rcases List.mem_append.mp member with inBefore | inRest
  · simpa [otherWanted] using earlier _ inBefore
  rcases List.mem_cons.mp inRest with same | inAfter
  · cases same
    exact List.le_refl _
  · have tail := (List.pairwise_append.mp ascending).2.1
    exact List.le_of_lt ((List.pairwise_cons.mp tail).1 _ inAfter)

theorem find?_eq_none_iff [DecidablePred wanted] :
    table.entries.find? (fun entry => decide (wanted entry.1)) = none ↔
      ∀ key, table.contains key = true → ¬ wanted key := by
  simp only [List.find?_eq_none, decide_eq_true_iff, contains_iff]
  exact ⟨fun nowhere key ⟨value, member⟩ => nowhere (key, value) member,
    fun nowhere entry member => nowhere entry.1 ⟨entry.2, member⟩⟩

theorem find?_eq_some_iff_first [DecidablePred wanted] :
    table.entries.find? (fun entry => decide (wanted entry.1)) = some (key, value) ↔
      table.First wanted key value := by
  refine ⟨first_of_find?, fun first => ?_⟩
  cases found : table.entries.find? fun entry => decide (wanted entry.1) with
  | none =>
    exact absurd first.meets (find?_eq_none_iff.mp found _ (contains_of_get? first.stored))
  | some entry =>
    obtain ⟨rfl, rfl⟩ := (first_of_find? found).unique first
    rfl

theorem exists_first_or_absent (table : Table) (wanted : Bytes → Prop) [DecidablePred wanted] :
    (∃ key value, table.First wanted key value) ∨
      ∀ key, table.contains key = true → ¬ wanted key := by
  cases found : table.entries.find? fun entry => decide (wanted entry.1) with
  | none => exact .inr (find?_eq_none_iff.mp found)
  | some entry => exact .inl ⟨entry.1, entry.2, first_of_find? found⟩

/-! ### Seeks -/

/-- What a seek from `start` under `stem` is after. -/
def Sought (stem start key : Bytes) : Prop := start ≤ key ∧ stem <+: key

instance (stem start : Bytes) : DecidablePred (Sought stem start) := fun key =>
  inferInstanceAs (Decidable (start ≤ key ∧ stem <+: key))

variable {α : Type} {format : Format α} {stem start : Bytes}

/-- How a seek ends: with the value under the first key that is sought, with the error that this
one value is not readable, or with nothing if no stored key is sought. -/
inductive SeekOutcome (table : Table) (format : Format α) (stem start : Bytes) :
    Except StoreError (Option α) → Prop
  | found {key bytes : Bytes} {value : α} (first : table.First (Sought stem start) key bytes)
      (readable : format.decode bytes = .ok value) :
      SeekOutcome table format stem start (.ok (some value))
  | unreadable {key bytes : Bytes} {error : WireError}
      (first : table.First (Sought stem start) key bytes)
      (fault : format.decode bytes = .error error) :
      SeekOutcome table format stem start (.error (.undecodable error))
  | absent (nowhere : ∀ key, table.contains key = true → ¬ Sought stem start key) :
      SeekOutcome table format stem start (.ok none)

theorem firstFrom_eq_some_iff :
    table.firstFrom start = some (key, value) ↔ table.First (start ≤ ·) key value :=
  find?_eq_some_iff_first

/-- Looking at the next key only is as good as looking for the first key that is sought. -/
theorem firstFrom_filter_eq_find? (startUnder : stem <+: start) :
    (table.firstFrom start).filter (fun entry => stem.isPrefixOf entry.1) =
      table.entries.find? fun entry => decide (Sought stem start entry.1) := by
  rw [firstFrom_filter table startUnder, under, List.find?_filter]
  congr 1
  funext entry
  refine decide_eq_decide.mpr ?_
  rw [List.isPrefixOf_iff_prefix, decide_eq_true_iff]
  exact and_comm

theorem readFirstFrom_of_first (startUnder : stem <+: start)
    (first : table.First (Sought stem start) key value) :
    table.readFirstFrom format stem start = (decodeValue format value).map some := by
  rw [readFirstFrom, firstFrom_filter_eq_find? startUnder, find?_eq_some_iff_first.mpr first,
    decodeOptional]

theorem readFirstFrom_of_absent (startUnder : stem <+: start)
    (absent : ∀ key, table.contains key = true → ¬ Sought stem start key) :
    table.readFirstFrom format stem start = .ok none := by
  rw [readFirstFrom, firstFrom_filter_eq_find? startUnder, find?_eq_none_iff.mpr absent,
    decodeOptional]

theorem SeekOutcome.eq (startUnder : stem <+: start) {outcome : Except StoreError (Option α)}
    (seeks : SeekOutcome table format stem start outcome) :
    table.readFirstFrom format stem start = outcome := by
  cases seeks with
  | found first readable =>
    rw [readFirstFrom_of_first startUnder first, decodeValue, readable]
    rfl
  | unreadable first fault =>
    rw [readFirstFrom_of_first startUnder first, decodeValue, fault]
    rfl
  | absent nowhere => exact readFirstFrom_of_absent startUnder nowhere

theorem exists_seekOutcome (table : Table) (format : Format α) (stem start : Bytes) :
    ∃ outcome, SeekOutcome table format stem start outcome := by
  rcases exists_first_or_absent table (Sought stem start) with ⟨key, bytes, first⟩ | absent
  · cases decoded : format.decode bytes with
    | ok value => exact ⟨_, .found first decoded⟩
    | error error => exact ⟨_, .unreadable first decoded⟩
  · exact ⟨_, .absent absent⟩

theorem firstFrom_congr {other : Table}
    (same : ∀ key value, other.First (start ≤ ·) key value ↔ table.First (start ≤ ·) key value) :
    other.firstFrom start = table.firstFrom start := by
  refine Option.ext fun ⟨key, value⟩ => ?_
  rw [firstFrom_eq_some_iff, firstFrom_eq_some_iff, same]

/-- A seek from a start that begins with the stem ends with the value under the smallest stored key
that is at or after the start and begins with the stem, with nothing if there is no such key, and
with an error if that value is not readable. It looks at the next key of the table only: tables
with the same next key and value answer alike, whatever else they hold. -/
theorem readFirstFrom_eq_iff (table : Table) (format : Format α) (startUnder : stem <+: start) :
    (∀ outcome, table.readFirstFrom format stem start = outcome ↔
      SeekOutcome table format stem start outcome) ∧
    ∀ other : Table,
      (∀ key value, other.First (start ≤ ·) key value ↔ table.First (start ≤ ·) key value) →
        other.readFirstFrom format stem start = table.readFirstFrom format stem start := by
  refine ⟨fun outcome => ⟨?_, SeekOutcome.eq startUnder⟩, fun other same => ?_⟩
  · rintro rfl
    obtain ⟨outcome, seeks⟩ := exists_seekOutcome table format stem start
    rwa [seeks.eq startUnder]
  · rw [readFirstFrom, readFirstFrom, firstFrom_congr same]

/-- Blocks that end at 3 and 7, and a key of another family after them: from 4 on the second block
is found, as it is in a table of this block alone, and from 8 on nothing, although a key comes
next. -/
theorem readFirstFrom_eq_iff_blocks :
    let table := Table.empty.insertAll
      [(Key.block 3, Format.word64.encode 3), (Key.block 7, Format.word64.encode 7),
        (Key.transactionCount, [])]
    SeekOutcome table Format.word64 Key.blockStem (Key.block 4) (.ok (some 7)) ∧
      (Table.empty.put Format.word64 (Key.block 7) 7).readFirstFrom Format.word64 Key.blockStem
        (Key.block 4) = table.readFirstFrom Format.word64 Key.blockStem (Key.block 4) ∧
      SeekOutcome table Format.word64 Key.blockStem (Key.block 8) (.ok none) ∧
      table.First (Key.block 8 ≤ ·) Key.transactionCount [] := by
  intro table
  have under (last : UInt64) : Key.blockStem <+: Key.block last := List.prefix_append _ _
  have seeks (last : UInt64) := readFirstFrom_eq_iff table Format.word64 (under last)
  have next : (Table.empty.put Format.word64 (Key.block 7) 7).firstFrom (Key.block 4) =
      table.firstFrom (Key.block 4) := by decide +kernel
  refine ⟨((seeks 4).1 _).mp (by decide +kernel), (seeks 4).2 _ fun key value => ?_,
    ((seeks 8).1 _).mp (by decide +kernel), firstFrom_eq_some_iff.mp (by decide +kernel)⟩
  rw [← firstFrom_eq_some_iff, ← firstFrom_eq_some_iff, next]

end Table

end StreamLedger
