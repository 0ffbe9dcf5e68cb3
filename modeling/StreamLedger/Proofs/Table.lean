/-
This file says what a table holds after it was written to, and what its scans see. A table is
known by its lookups: an entry stands in it exactly when looking up its key gives its value, and
what was written under a key is read back from there.
Since the entries are in order, every scan is known by its members: a list in order that has
the entries a scan asks for, and no others, is what the scan gives.
-/
import Mathlib.Data.List.Perm.Basic
import StreamLedger.Proofs.Wire
import StreamLedger.Table

namespace StreamLedger

/-- What an association list gives for a key, decided by the first pair. -/
theorem lookup_cons_eq_ite {α β : Type} [DecidableEq α] [BEq α] [LawfulBEq α] (key : α)
    (pair : α × β) (rest : List (α × β)) :
    (pair :: rest).lookup key = if key = pair.1 then some pair.2 else rest.lookup key := by
  rw [List.lookup_cons]
  by_cases here : key = pair.1
  · simp [here]
  · simp [here, beq_eq_false_iff_ne.mpr here]

namespace Table

/-! ### Lookups -/

theorem get?_insert (table : Table) (key value other : Bytes) :
    (table.insert key value).get? other = if other = key then some value else table.get? other := by
  show (insertEntry key value table.entries).lookup other =
    if _ then _ else table.entries.lookup other
  induction table.entries with
  | nil => exact lookup_cons_eq_ite other (key, value) []
  | cons head rest inductionHypothesis =>
    unfold insertEntry
    split
    · exact lookup_cons_eq_ite other (key, value) (head :: rest)
    · split
      · rename_i equal
        rw [lookup_cons_eq_ite, lookup_cons_eq_ite]
        simp only [equal]
        split <;> rfl
      · rename_i different
        rw [lookup_cons_eq_ite, lookup_cons_eq_ite, inductionHypothesis]
        by_cases here : other = head.1
        · have elsewhere : other ≠ key := fun same => different (same.symm.trans here)
          rw [if_pos here, if_neg elsewhere, if_pos here]
        · rw [if_neg here, if_neg here]

/-- Putting many values changes the lookups of their keys only. -/
theorem get?_insertAll_of_forall_ne {table : Table} {entries : List Entry} {key : Bytes}
    (elsewhere : ∀ entry ∈ entries, key ≠ entry.1) :
    (table.insertAll entries).get? key = table.get? key := by
  induction entries generalizing table with
  | nil => rfl
  | cons entry rest inductionHypothesis =>
    show ((table.insert entry.1 entry.2).insertAll rest).get? key = _
    rw [inductionHypothesis fun other member => elsewhere other (List.mem_cons_of_mem _ member),
      get?_insert, if_neg (elsewhere entry List.mem_cons_self)]

/-- Of the values put under different keys, each is found under its own. -/
theorem get?_insertAll_of_mem {table : Table} {entries : List Entry} {entry : Entry}
    (distinct : entries.Pairwise fun a b => a.1 ≠ b.1) (member : entry ∈ entries) :
    (table.insertAll entries).get? entry.1 = some entry.2 := by
  induction entries generalizing table with
  | nil => cases member
  | cons head rest inductionHypothesis =>
    obtain ⟨headApart, restDistinct⟩ := List.pairwise_cons.mp distinct
    show ((table.insert head.1 head.2).insertAll rest).get? entry.1 = _
    rcases List.mem_cons.mp member with rfl | member
    · rw [get?_insertAll_of_forall_ne headApart, get?_insert, if_pos rfl]
    · exact inductionHypothesis restDistinct member

/-- Of several values put under one key the last one counts. -/
theorem get?_insertAll_append (table : Table) (earlier later : List Entry) {key value : Bytes}
    (final : ∀ entry ∈ later, key ≠ entry.1) :
    (table.insertAll (earlier ++ (key, value) :: later)).get? key = some value := by
  have split : table.insertAll (earlier ++ (key, value) :: later) =
      ((table.insertAll earlier).insert key value).insertAll later := by
    simp only [insertAll, List.foldl_append, List.foldl_cons]
  rw [split, get?_insertAll_of_forall_ne final, get?_insert, if_pos rfl]

theorem mem_entries_iff (table : Table) (key value : Bytes) :
    (key, value) ∈ table.entries ↔ table.get? key = some value := by
  obtain ⟨entries, ascending⟩ := table
  show _ ↔ entries.lookup key = some value
  induction entries with
  | nil => simp
  | cons head rest inductionHypothesis =>
    obtain ⟨headBelow, restAscending⟩ := List.pairwise_cons.mp ascending
    rw [List.mem_cons, inductionHypothesis restAscending, lookup_cons_eq_ite]
    by_cases here : key = head.1
    · subst here
      -- No later entry has the key of the first one.
      have absent : rest.lookup head.1 = none := by
        refine List.lookup_eq_none_iff.mpr fun entry member => ?_
        have below := headBelow entry member
        refine bne_iff_ne.mpr fun same => ?_
        exact List.lt_irrefl _ (same ▸ below)
      simp [absent, Prod.ext_iff, eq_comm]
    · have different : (key, value) ≠ head := fun same => here (congrArg Prod.fst same)
      simp [here, different]

/-- What was written under a key is read back. -/
theorem read_eq {α : Type} {format : Format α} {table : Table} {key : Bytes} {value : Option α}
    (content : table.get? key = value.map format.encode)
    (returns : ∀ present, value = some present → format.Returns present) :
    table.read format key = .ok value := by
  simp only [read, content]
  cases value with
  | none => rfl
  | some present =>
    simp only [Option.map_some, decodeValue, Format.decode_encode (returns present rfl)]
    rfl

/-! ### Scans -/

theorem nodup_of_ascending {entries : List Entry} (ascending : Ascending entries) :
    entries.Nodup := by
  refine List.Pairwise.imp ?_ ascending
  intro a b below equal
  exact List.lt_irrefl _ (equal ▸ below)

/-- Two lists of entries in order that have the same members are equal. -/
theorem ascending_ext {first second : List Entry} (firstAscending : Ascending first)
    (secondAscending : Ascending second) (same : ∀ entry, entry ∈ first ↔ entry ∈ second) :
    first = second := by
  refine List.Perm.eq_of_pairwise (fun a b _ _ below above => ?_) firstAscending secondAscending
    ((List.perm_ext_iff_of_nodup (nodup_of_ascending firstAscending)
      (nodup_of_ascending secondAscending)).mpr same)
  exact absurd above (List.lt_asymm below)

theorem under_eq {table : Table} {stem : Bytes} {expected : List Entry}
    (ascending : Ascending expected)
    (members : ∀ key value, (key, value) ∈ expected ↔
      table.get? key = some value ∧ stem <+: key) :
    table.under stem = expected := by
  refine ascending_ext (table.ascending.filter _) ascending fun ⟨key, value⟩ => ?_
  rw [members, ← mem_entries_iff, under, List.mem_filter, List.isPrefixOf_iff_prefix]

theorem between_eq {table : Table} {first last : Bytes} {expected : List Entry}
    (ascending : Ascending expected)
    (members : ∀ key value, (key, value) ∈ expected ↔
      table.get? key = some value ∧ first ≤ key ∧ key ≤ last) :
    table.between first last = expected := by
  refine ascending_ext (table.ascending.filter _) ascending fun ⟨key, value⟩ => ?_
  rw [members, ← mem_entries_iff, between, List.mem_filter, Bool.and_eq_true, decide_eq_true_eq,
    decide_eq_true_eq]

/-- The first entry from `start` on is, if it begins with `stem`, the first of those that do:
the entries that begin with `stem` stand together, so none comes after one that does not. -/
theorem firstFrom_filter (table : Table) {stem start : Bytes} (startUnder : stem <+: start) :
    (table.firstFrom start).filter (fun entry => stem.isPrefixOf entry.1) =
      (table.under stem).find? fun entry => decide (start ≤ entry.1) := by
  obtain ⟨entries, ascending⟩ := table
  unfold firstFrom under
  induction entries with
  | nil => rfl
  | cons head rest inductionHypothesis =>
    obtain ⟨headBelow, restAscending⟩ := List.pairwise_cons.mp ascending
    have tail := inductionHypothesis restAscending
    simp only [List.filter_cons] at tail ⊢
    by_cases reached : start ≤ head.1
    · rw [List.find?_cons_of_pos (by simpa using reached)]
      by_cases inside : stem <+: head.1
      · have inside : stem.isPrefixOf head.1 = true := List.isPrefixOf_iff_prefix.mpr inside
        rw [if_pos inside, List.find?_cons_of_pos (by simpa using reached)]
        simp [inside]
      · have outside : ¬ stem.isPrefixOf head.1 = true :=
          fun prefixed => inside (List.isPrefixOf_iff_prefix.mp prefixed)
        have empty : rest.filter (fun entry => stem.isPrefixOf entry.1) = [] := by
          refine List.filter_eq_nil_iff.mpr fun entry member prefixed => inside ?_
          exact isPrefix_of_le_of_le startUnder (List.isPrefixOf_iff_prefix.mp prefixed) reached
            (List.le_of_lt (headBelow entry member))
        rw [if_neg outside, empty]
        simpa using inside
    · rw [List.find?_cons_of_neg (by simpa using reached), tail]
      split
      · rw [List.find?_cons_of_neg (by simpa using reached)]
      · rfl

end Table

end StreamLedger
