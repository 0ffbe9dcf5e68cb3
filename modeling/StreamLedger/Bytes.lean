/-
Byte strings. They are lists, so that the lexicographic order of the core library is
the order of keys and digests, and an operation on bytes is an operation on lists.
Numbers are written as digits to the base 256, the least significant first, and the
other byte order is the reverse of that.
-/

namespace StreamLedger

abbrev Bytes := List UInt8

/-- A byte string of exactly `size` bytes. -/
structure Octets (size : Nat) where
  bytes : Bytes
  length_bytes : bytes.length = size
deriving DecidableEq, Hashable

namespace Octets

/-- The byte string itself, if it has the length asked for. -/
def ofBytes? (size : Nat) (bytes : Bytes) : Option (Octets size) :=
  if h : bytes.length = size then some ⟨bytes, h⟩ else none

/-- All bytes zero. -/
def zero (size : Nat) : Octets size := ⟨List.replicate size 0, List.length_replicate⟩

instance (size : Nat) : Inhabited (Octets size) := ⟨zero size⟩

/-- Fixed-length byte strings compare as their bytes do, the first difference deciding. -/
instance (size : Nat) : LE (Octets size) := ⟨fun a b => a.bytes ≤ b.bytes⟩

instance (size : Nat) (a b : Octets size) : Decidable (a ≤ b) :=
  inferInstanceAs (Decidable (a.bytes ≤ b.bytes))

theorem ext_bytes {size : Nat} {a b : Octets size} (same : a.bytes = b.bytes) : a = b := by
  cases a
  cases b
  simp_all

@[simp]
theorem ofBytes?_bytes {size : Nat} (a : Octets size) : ofBytes? size a.bytes = some a := by
  simp [ofBytes?, a.length_bytes]

end Octets

/-! ### Numbers as bytes -/

/-- The lowest `width` digits of `value` to the base 256, the least significant first. -/
def littleEndian : (width value : Nat) → Bytes
  | 0, _ => []
  | width + 1, value => UInt8.ofNat value :: littleEndian width (value / 256)

/-- The number whose digits to the base 256 are `bytes`, the least significant first. -/
def ofLittleEndian : Bytes → Nat
  | [] => 0
  | byte :: rest => byte.toNat + 256 * ofLittleEndian rest

/-- The lowest `width` digits of `value` to the base 256, the most significant first. -/
def bigEndian (width value : Nat) : Bytes := (littleEndian width value).reverse

/-- The number whose digits to the base 256 are `bytes`, the most significant first. -/
def ofBigEndian (bytes : Bytes) : Nat := ofLittleEndian bytes.reverse

@[simp]
theorem length_littleEndian (width value : Nat) : (littleEndian width value).length = width := by
  induction width generalizing value with
  | zero => rfl
  | succ width inductionHypothesis => simp [littleEndian, inductionHypothesis]

@[simp]
theorem length_bigEndian (width value : Nat) : (bigEndian width value).length = width := by
  simp [bigEndian]

end StreamLedger
