/-
This file proves that reading a digest accepts exactly its grammar: 64 hexadecimal digits in either
case, after at most one `0x`, are read as the digest that they spell, so both written forms of a
digest are read back. For every other text the error tells what is wrong with what follows the mark,
and of several faults it is always the same one that is told.
-/
import StreamLedger.Digest
import StreamLedger.Proofs.Bytes
import StreamLedger.Proofs.Text.Hex

namespace StreamLedger

namespace Digest

open Hex (IsDigit Spells withoutMark)

/-- Why a byte string is not that of 64 digits. An odd number of bytes wins over a byte that is no
digit, and this over a wrong number of digits. -/
inductive Unreadable (text : Bytes) : HexError → Prop
  | oddLength (odd : text.length % 2 = 1) : Unreadable text .oddLength
  | invalidDigit {before after : Bytes} {byte : UInt8} (even : text.length % 2 = 0)
      (split : text = before ++ byte :: after) (digits : ∀ earlier ∈ before, IsDigit earlier)
      (wrong : ¬ IsDigit byte) : Unreadable text (.invalidDigit byte before.length)
  | wrongSize (even : text.length % 2 = 0) (digits : ∀ byte ∈ text, IsDigit byte)
      (size : text.length ≠ 64) : Unreadable text .wrongSize

variable {text : String}

theorem parse_of_decode_eq_ok {bytes : Bytes}
    (decoded : Hex.decodeBytes (utf8 (withoutMark text)) = .ok bytes) :
    parse text = (Octets.ofBytes? 32 bytes).elim (.error .wrongSize) .ok := by
  simp only [parse, parseBytes, Hex.dropMark_utf8, decoded]
  cases Octets.ofBytes? 32 bytes <;> rfl

theorem parse_of_decode_eq_error {error : HexError}
    (refused : Hex.decodeBytes (utf8 (withoutMark text)) = .error error) :
    parse text = .error error := by
  simp only [parse, parseBytes, Hex.dropMark_utf8, refused]

theorem parse_eq_ok_iff (digest : Digest) :
    parse text = .ok digest ↔ Spells (withoutMark text).toList digest.bytes := by
  rw [← Hex.decodeBytes_eq_ok_iff]
  cases decoded : Hex.decodeBytes (utf8 (withoutMark text)) with
  | error error =>
    rw [parse_of_decode_eq_error decoded]
    simp
  | ok bytes =>
    rw [parse_of_decode_eq_ok decoded]
    constructor
    · intro parsed
      cases whole : Octets.ofBytes? 32 bytes with
      | some _ =>
        rw [whole] at parsed
        cases parsed
        rw [Octets.bytes_of_ofBytes? whole]
      | none =>
        rw [whole] at parsed
        cases parsed
    · intro same
      cases same
      rw [Octets.ofBytes?_bytes, Option.elim_some]

theorem parse_of_unreadable {error : HexError}
    (unreadable : Unreadable (utf8 (withoutMark text)) error) : parse text = .error error := by
  cases unreadable with
  | oddLength odd => exact parse_of_decode_eq_error (if_pos odd)
  | invalidDigit even split digits wrong =>
    refine parse_of_decode_eq_error ?_
    rw [Hex.decodeBytes, if_neg (by omega), split,
      Hex.decodeFrom_of_not_isDigit (split ▸ even) digits wrong, Nat.zero_add]
  | wrongSize even digits size =>
    obtain ⟨bytes, decoded⟩ := Hex.exists_decodeBytes even digits
    have length := Hex.length_of_decodeBytes decoded
    rw [parse_of_decode_eq_ok decoded, Octets.ofBytes?, dif_neg (by omega), Option.elim_none]

theorem exists_digest_or_unreadable (text : String) :
    (∃ digest, parse text = .ok digest) ∨
      ∃ error, Unreadable (utf8 (withoutMark text)) error := by
  rcases Nat.mod_two_eq_zero_or_one (utf8 (withoutMark text)).length with even | odd
  · rcases Hex.forall_isDigit_or_exists (utf8 (withoutMark text)) with digits | fault
    · by_cases size : (utf8 (withoutMark text)).length = 64
      · obtain ⟨bytes, decoded⟩ := Hex.exists_decodeBytes even digits
        have length := Hex.length_of_decodeBytes decoded
        refine .inl ⟨⟨bytes, by omega⟩, (parse_eq_ok_iff _).mpr ?_⟩
        exact (Hex.decodeBytes_eq_ok_iff _ _).mp decoded
      · exact .inr ⟨_, .wrongSize even digits size⟩
    · obtain ⟨before, byte, after, split, digits, wrong⟩ := fault
      exact .inr ⟨_, .invalidDigit even split digits wrong⟩
  · exact .inr ⟨_, .oddLength odd⟩

theorem parse_eq_error_iff (error : HexError) :
    parse text = .error error ↔ Unreadable (utf8 (withoutMark text)) error := by
  refine ⟨fun refused => ?_, parse_of_unreadable⟩
  rcases exists_digest_or_unreadable text with ⟨digest, parsed⟩ | ⟨other, unreadable⟩
  · rw [parsed] at refused
    cases refused
  · rw [parse_of_unreadable unreadable] at refused
    cases refused
    exact unreadable

/-- A text is read as a digest exactly if, after at most one `0x`, it is the digest's digits, two
for each byte in either case; so both written forms of a digest are read back. Any other text is
refused for the first of the faults that the rest of it has. -/
theorem parse_accepts_exactly :
    (∀ text digest, parse text = .ok digest ↔ Spells (withoutMark text).toList digest.bytes) ∧
    (∀ text error, parse text = .error error ↔ Unreadable (utf8 (withoutMark text)) error) ∧
    ∀ digest, parse digest.hex = .ok digest ∧ parse digest.marked = .ok digest := by
  refine ⟨fun text => parse_eq_ok_iff, fun text => parse_eq_error_iff, fun digest => ?_⟩
  have spells : Spells digest.hex.toList digest.bytes := Hex.spells_encode digest.bytes
  have unmarked : withoutMark digest.hex = digest.hex := Hex.withoutMark_of_spells spells
  have marked : withoutMark digest.marked = digest.hex := by
    rw [Digest.marked, Hex.withoutMark_marked]
  rw [parse_eq_ok_iff, parse_eq_ok_iff, unmarked, marked]
  exact ⟨spells, spells⟩

-- An odd number of bytes, a letter of two bytes in the place of a digit, and too few digits.
example : parse "0x0éz" = .error (.invalidDigit 0xC3 1) := by cbv
example : parse "0xz" = .error .oddLength := by cbv
example : parse "0xABcd" = .error .wrongSize := by cbv

end Digest

end StreamLedger
