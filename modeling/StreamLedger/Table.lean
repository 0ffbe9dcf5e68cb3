/-
Tables: byte strings stored under byte strings, in the lexicographic order of the keys. A
table is the list of its entries with a proof of their order, so two tables with the same
entries are equal, and what a scan meets first is what stands first in the list.
-/
import StreamLedger.Wire

namespace StreamLedger

namespace Table

abbrev Entry := Bytes × Bytes

/-- Each key is below those after it, so none occurs twice. -/
abbrev Ascending (entries : List Entry) : Prop := entries.Pairwise fun a b => a.1 < b.1

/-- Puts a value under a key among entries in order, in place of what is there. -/
def insertEntry (key value : Bytes) : List Entry → List Entry
  | [] => [(key, value)]
  | entry :: rest =>
    if key < entry.1 then (key, value) :: entry :: rest
    else if key = entry.1 then (key, value) :: rest
    else entry :: insertEntry key value rest

theorem key_of_mem_insertEntry {key value : Bytes} {entries : List Entry} {entry : Entry}
    (member : entry ∈ insertEntry key value entries) : entry.1 = key ∨ entry ∈ entries := by
  induction entries with
  | nil => simp_all [insertEntry]
  | cons head rest inductionHypothesis =>
    unfold insertEntry at member
    split at member
    · rcases List.mem_cons.mp member with rfl | member
      · exact Or.inl rfl
      · exact Or.inr member
    · split at member
      · rcases List.mem_cons.mp member with rfl | member
        · exact Or.inl rfl
        · exact Or.inr (List.mem_cons_of_mem _ member)
      · rcases List.mem_cons.mp member with rfl | member
        · exact Or.inr List.mem_cons_self
        · exact (inductionHypothesis member).imp id (List.mem_cons_of_mem _)

theorem lt_of_not_lt_of_ne {a b : Bytes} (notBelow : ¬ a < b) (different : a ≠ b) : b < a :=
  Classical.byContradiction fun notAbove =>
    different (List.le_antisymm (List.not_lt.mp notAbove) (List.not_lt.mp notBelow))

theorem ascending_insertEntry (key value : Bytes) {entries : List Entry}
    (ascending : Ascending entries) : Ascending (insertEntry key value entries) := by
  induction entries with
  | nil => simp [insertEntry]
  | cons head rest inductionHypothesis =>
    obtain ⟨headBelow, restAscending⟩ := List.pairwise_cons.mp ascending
    unfold insertEntry
    split
    · rename_i below
      refine List.pairwise_cons.mpr ⟨fun entry member => ?_, ascending⟩
      rcases List.mem_cons.mp member with rfl | member
      · exact below
      · exact List.lt_trans below (headBelow entry member)
    · split
      · rename_i equal
        refine List.pairwise_cons.mpr ⟨fun entry member => ?_, restAscending⟩
        exact (show key < entry.1 from equal ▸ headBelow entry member)
      · rename_i notBelow different
        refine List.pairwise_cons.mpr ⟨fun entry member => ?_, inductionHypothesis restAscending⟩
        rcases key_of_mem_insertEntry member with equal | member
        · rw [equal]
          exact lt_of_not_lt_of_ne notBelow different
        · exact headBelow entry member

end Table

structure Table where
  entries : List Table.Entry
  ascending : Table.Ascending entries

namespace Table

def empty : Table := ⟨[], List.Pairwise.nil⟩

instance : Inhabited Table := ⟨empty⟩

/-- Puts a value under a key, in place of what is there. -/
def insert (table : Table) (key value : Bytes) : Table :=
  ⟨insertEntry key value table.entries, ascending_insertEntry key value table.ascending⟩

/-- Puts many values in one step; of two under one key the later counts. -/
def insertAll (table : Table) (entries : List Entry) : Table :=
  entries.foldl (fun table entry => table.insert entry.1 entry.2) table

def get? (table : Table) (key : Bytes) : Option Bytes := table.entries.lookup key

def contains (table : Table) (key : Bytes) : Bool := (table.get? key).isSome

/-- The entries whose keys lie between two keys, both included. -/
def between (table : Table) (first last : Bytes) : List Entry :=
  table.entries.filter fun entry => decide (first ≤ entry.1) && decide (entry.1 ≤ last)

/-- The entries whose keys begin with `stem`. -/
def under (table : Table) (stem : Bytes) : List Entry :=
  table.entries.filter fun entry => stem.isPrefixOf entry.1

/-- The first entry whose key is not below `start`. -/
def firstFrom (table : Table) (start : Bytes) : Option Entry :=
  table.entries.find? fun entry => decide (start ≤ entry.1)

end Table

/-- Why a stored value could not be had. -/
inductive StoreError where
  /-- The value's bytes are none of the format asked for. -/
  | undecodable (error : WireError)
  /-- The key does not end in a number. -/
  | malformedKey (key : Bytes)
deriving DecidableEq

/-- A byte string as messages list it: the bytes as decimal numbers. -/
def listedBytes (bytes : Bytes) : String :=
  "[" ++ ", ".intercalate (bytes.map fun byte => toString byte.toNat) ++ "]"

def StoreError.message : StoreError → String
  | .undecodable error => "Serialization error: " ++ error.message
  | .malformedKey key => "Malformed key: " ++ listedBytes key

namespace Table

variable {α : Type}

/-- The value in some bytes. -/
def decodeValue (format : Format α) (bytes : Bytes) : Except StoreError α :=
  match format.decode bytes with
  | .ok value => .ok value
  | .error error => .error (.undecodable error)

/-- The values of some entries; the first that cannot be had is the error. -/
def decodeAll (format : Format α) : List Entry → Except StoreError (List α)
  | [] => .ok []
  | entry :: rest =>
    match decodeValue format entry.2 with
    | .error error => .error error
    | .ok value => (decodeAll format rest).map (value :: ·)

/-- The value of an entry, if there is an entry. -/
def decodeOptional (format : Format α) : Option Entry → Except StoreError (Option α)
  | none => .ok none
  | some entry => (decodeValue format entry.2).map some

def put (table : Table) (format : Format α) (key : Bytes) (value : α) : Table :=
  table.insert key (format.encode value)

def read (table : Table) (format : Format α) (key : Bytes) : Except StoreError (Option α) :=
  match table.get? key with
  | none => .ok none
  | some bytes => (decodeValue format bytes).map some

/-- The values between two keys, both included, in the order of the keys. -/
def readBetween (table : Table) (format : Format α) (first last : Bytes) :
    Except StoreError (List α) :=
  decodeAll format (table.between first last)

/-- Of the values whose keys begin with `stem`, at most `take` after the first `skip`. The
skipped values need not be readable. -/
def readUnder (table : Table) (format : Format α) (stem : Bytes) (skip take : Nat) :
    Except StoreError (List α) :=
  decodeAll format (((table.under stem).drop skip).take take)

/-- The last key that begins with `stem`. -/
def lastKeyUnder (table : Table) (stem : Bytes) : Option Bytes :=
  (table.under stem).getLast?.map (·.1)

/-- The value under the last key that begins with `stem`. -/
def readLastUnder (table : Table) (format : Format α) (stem : Bytes) :
    Except StoreError (Option α) :=
  decodeOptional format (table.under stem).getLast?

/-- The value of the first entry from `start` on, if its key begins with `stem`. Only this
entry is looked at, since the keys that begin with `stem` stand together. -/
def readFirstFrom (table : Table) (format : Format α) (stem start : Bytes) :
    Except StoreError (Option α) :=
  decodeOptional format ((table.firstFrom start).filter fun entry => stem.isPrefixOf entry.1)

end Table

end StreamLedger
