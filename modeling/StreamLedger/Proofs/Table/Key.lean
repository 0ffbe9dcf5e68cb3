/-
This file proves that the keys of the stored ledger do not get into each other's way. A slot
is what a key is made for: a transaction's position, a digest, a place in a stream. Every key
begins with the stem of its family, no stem is the beginning of another one's, and so a key
tells its slot: the keys of different slots differ, and a scan under a stem meets the keys of
one family, or of one stream, only. Within a family the order of the keys is that of the numbers.
-/
import StreamLedger.Proofs.Bytes
import StreamLedger.Table.Key

namespace StreamLedger

namespace Key

/-! ### Numbers in keys -/

@[simp]
theorem length_number (value : UInt64) : (number value).length = 8 := length_bigEndian 8 _

theorem number_lt_iff (a b : UInt64) : number a < number b ↔ a < b := by
  unfold number
  rw [bigEndian_lt_iff a.toNat_lt b.toNat_lt, UInt64.lt_iff_toNat_lt]

theorem number_injective {a b : UInt64} (same : number a = number b) : a = b := by
  have numbers := congrArg ofBigEndian same
  unfold number at numbers
  rw [ofBigEndian_bigEndian, ofBigEndian_bigEndian, word64_mod, word64_mod] at numbers
  exact UInt64.toNat_inj.mp numbers

/-- The number at the end of a key is read back, whatever stands before it. -/
theorem lastNumber_append_number (stem : Bytes) (value : UInt64) :
    lastNumber (stem ++ number value) = .ok value := by
  have long : 8 ≤ (stem ++ number value).length := by simp
  have rest : (stem ++ number value).drop ((stem ++ number value).length - 8) = number value := by
    rw [List.length_append, length_number, Nat.add_sub_cancel, List.drop_left]
  unfold lastNumber
  rw [if_pos long, rest]
  unfold number
  rw [ofBigEndian_bigEndian, word64_mod, UInt64.ofNat_toNat]

theorem lt_of_number {stem : Bytes} (a b : UInt64) :
    stem ++ number a < stem ++ number b ↔ a < b := by
  rw [append_lt_append_iff, number_lt_iff]

theorem le_of_number {stem : Bytes} (a b : UInt64) :
    stem ++ number a ≤ stem ++ number b ↔ a ≤ b := by
  rw [← List.not_lt, lt_of_number, UInt64.not_lt]

end Key

/-! ### Families -/

/-- The kinds of keys. -/
inductive Family where
  | transaction
  | digest
  | stream
  | block
  | blockDigest
  | transactionCount
deriving DecidableEq

/-- What the keys of a family begin with. -/
def Family.stem : Family → Bytes
  | .transaction => Key.transactionStem
  | .digest => Key.digestStem
  | .stream => Key.streamStem
  | .block => Key.blockStem
  | .blockDigest => Key.blockDigestStem
  | .transactionCount => Key.transactionCount

theorem Family.eq_of_stem_isPrefix {first second : Family}
    (prefixed : first.stem <+: second.stem) : first = second := by
  revert prefixed
  cases first <;> cases second <;> decide

/-- What a key of the stored ledger is made for. -/
inductive Slot where
  | transaction (position : UInt64)
  | digest (name : Digest)
  | streamEntry (id : StreamId) (index : UInt64)
  | block (last : UInt64)
  | blockDigest (name : Digest)
  | transactionCount
deriving DecidableEq

namespace Slot

def key : Slot → Bytes
  | .transaction position => Key.transaction position
  | .digest name => Key.transactionDigest name
  | .streamEntry id index => Key.streamEntry id index
  | .block last => Key.block last
  | .blockDigest name => Key.blockDigest name
  | .transactionCount => Key.transactionCount

def family : Slot → Family
  | .transaction _ => .transaction
  | .digest _ => .digest
  | .streamEntry _ _ => .stream
  | .block _ => .block
  | .blockDigest _ => .blockDigest
  | .transactionCount => .transactionCount

/-- What comes after the stem in a slot's key. -/
def suffix : Slot → Bytes
  | .transaction position => Key.number position
  | .digest name => name.bytes
  | .streamEntry id index => id.bytes ++ Key.number index
  | .block last => Key.number last
  | .blockDigest name => name.bytes
  | .transactionCount => []

theorem key_eq (slot : Slot) : slot.key = slot.family.stem ++ slot.suffix := by
  cases slot with
  | streamEntry id index => exact List.append_assoc _ _ _
  | transactionCount => exact (List.append_nil _).symm
  | _ => rfl

theorem stem_isPrefix (slot : Slot) : slot.family.stem <+: slot.key :=
  slot.key_eq ▸ List.prefix_append _ _

/-- A key begins with the stem of its own family only. -/
theorem family_eq_of_isPrefix (family : Family) {slot : Slot}
    (prefixed : family.stem <+: slot.key) :
    slot.family = family := by
  rcases List.prefix_or_prefix_of_prefix prefixed slot.stem_isPrefix with within | within
  · exact (Family.eq_of_stem_isPrefix within).symm
  · exact Family.eq_of_stem_isPrefix within

/-- A key is made for one slot. -/
theorem key_injective {first second : Slot} (same : first.key = second.key) : first = second := by
  have families : first.family = second.family :=
    family_eq_of_isPrefix second.family (same ▸ second.stem_isPrefix)
  have suffixes : first.suffix = second.suffix := by
    rw [key_eq, key_eq, families] at same
    exact List.append_cancel_left same
  cases first <;> cases second <;> cases families
  case transaction => rw [Key.number_injective suffixes]
  case digest => rw [Octets.ext_bytes suffixes]
  case streamEntry firstId _ secondId _ =>
    obtain ⟨ids, indices⟩ := List.append_inj suffixes
      (firstId.length_bytes.trans secondId.length_bytes.symm)
    rw [Octets.ext_bytes ids, Key.number_injective indices]
  case block => rw [Key.number_injective suffixes]
  case blockDigest => rw [Octets.ext_bytes suffixes]
  case transactionCount => rfl

@[simp]
theorem key_inj {first second : Slot} : first.key = second.key ↔ first = second :=
  ⟨key_injective, fun same => same ▸ rfl⟩

/-! ### Scans under a stem -/

theorem eq_transaction_of_isPrefix {slot : Slot} (prefixed : Key.transactionStem <+: slot.key) :
    ∃ position, slot = .transaction position := by
  have family := family_eq_of_isPrefix .transaction prefixed
  cases slot <;> cases family
  exact ⟨_, rfl⟩

theorem eq_block_of_isPrefix {slot : Slot} (prefixed : Key.blockStem <+: slot.key) :
    ∃ last, slot = .block last := by
  have family := family_eq_of_isPrefix .block prefixed
  cases slot <;> cases family
  exact ⟨_, rfl⟩

/-- A key that begins with a stream's stem is that of a place in this very stream. -/
theorem eq_streamEntry_of_isPrefix {slot : Slot} {id : StreamId}
    (prefixed : Key.stream id <+: slot.key) : ∃ index, slot = .streamEntry id index := by
  have family := family_eq_of_isPrefix .stream
    ((List.prefix_append _ id.bytes).trans prefixed)
  cases slot with
  | streamEntry other index =>
    have suffixes : id.bytes <+: other.bytes ++ Key.number index := by
      rw [key_eq] at prefixed
      exact (List.prefix_append_right_inj _).mp prefixed
    have ids : id.bytes = other.bytes := by
      obtain ⟨rest, same⟩ := suffixes
      exact (List.append_inj same (id.length_bytes.trans other.length_bytes.symm)).1
    exact ⟨index, by rw [Octets.ext_bytes ids]⟩
  | _ => cases family

theorem stream_isPrefix_iff (slot : Slot) (id : StreamId) :
    Key.stream id <+: slot.key ↔ ∃ index, slot.key = Key.streamEntry id index := by
  constructor
  · intro prefixed
    obtain ⟨index, rfl⟩ := eq_streamEntry_of_isPrefix prefixed
    exact ⟨index, rfl⟩
  · rintro ⟨index, same⟩
    exact same ▸ List.prefix_append _ _

theorem blockStem_isPrefix_iff (slot : Slot) :
    Key.blockStem <+: slot.key ↔ ∃ last, slot.key = Key.block last := by
  constructor
  · intro prefixed
    obtain ⟨last, rfl⟩ := eq_block_of_isPrefix prefixed
    exact ⟨last, rfl⟩
  · rintro ⟨last, same⟩
    exact same ▸ List.prefix_append _ _

/-! ### The layout as a whole -/

/-- What the scans of the stored ledger rely on. A key tells its family and what it is made for, the
order of the numbered keys of a family or a stream is that of their numbers, a scan under a
stream's stem or that of the blocks meets no other keys, and a key's number is read back from its
end. -/
structure Layout : Prop where
  distinct : ∀ first second : Slot, first.key = second.key ↔ first = second
  transactions : ∀ first second, Key.transaction first < Key.transaction second ↔ first < second
  blocks : ∀ first second, Key.block first < Key.block second ↔ first < second
  entries : ∀ id first second,
    Key.streamEntry id first < Key.streamEntry id second ↔ first < second
  underStream : ∀ (slot : Slot) id,
    Key.stream id <+: slot.key ↔ ∃ index, slot.key = Key.streamEntry id index
  underBlocks : ∀ slot : Slot, Key.blockStem <+: slot.key ↔ ∃ last, slot.key = Key.block last
  transactionNumber : ∀ position, Key.lastNumber (Key.transaction position) = .ok position
  entryNumber : ∀ id index, Key.lastNumber (Key.streamEntry id index) = .ok index
  blockNumber : ∀ last, Key.lastNumber (Key.block last) = .ok last

theorem layout : Layout where
  distinct _ _ := key_inj
  transactions := Key.lt_of_number
  blocks := Key.lt_of_number
  entries _ := Key.lt_of_number
  underStream := stream_isPrefix_iff
  underBlocks := blockStem_isPrefix_iff
  transactionNumber := Key.lastNumber_append_number Key.transactionStem
  entryNumber id := Key.lastNumber_append_number (Key.stream id)
  blockNumber := Key.lastNumber_append_number Key.blockStem

end Slot

end StreamLedger
