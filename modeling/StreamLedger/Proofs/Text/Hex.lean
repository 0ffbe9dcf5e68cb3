/-
This file says which texts are hexadecimal and what they stand for: each byte is spelled by two
digits, its high half first, and a digit is one of sixteen characters in either case. A text is
decoded exactly if it spells some bytes, and then to these. Any other text has an odd number of
bytes or a first byte that is no digit, and the error names that byte and how many come before it.
-/
import StreamLedger.Proofs.Text.Utf8
import StreamLedger.Text.Hex

namespace StreamLedger

namespace Hex

/-! ### Digits -/

def lowerDigits : List Char := "0123456789abcdef".toList

def upperDigits : List Char := "0123456789ABCDEF".toList

/-- The character is the digit for a value, in lower or in upper case. -/
def Denotes (character : Char) (value : Nat) : Prop :=
  lowerDigits[value]? = some character ∨ upperDigits[value]? = some character

/-- The byte is a digit, in lower or in upper case. -/
def IsDigit (byte : UInt8) : Prop := Char.ofUInt8 byte ∈ lowerDigits ++ upperDigits

instance : DecidablePred IsDigit := fun byte =>
  inferInstanceAs (Decidable (Char.ofUInt8 byte ∈ lowerDigits ++ upperDigits))

theorem toUInt8_ofUInt8 (byte : UInt8) : (Char.ofUInt8 byte).toUInt8 = byte :=
  UInt8.toUInt8_toUInt32 byte

theorem denotes_of_value? {byte value : UInt8} (read : value? byte = some value) :
    Denotes (Char.ofUInt8 byte) value.toNat := by
  have table : ∀ number < 256, ∀ value ∈ value? (UInt8.ofNat number),
      lowerDigits[value.toNat]? = some (Char.ofUInt8 (UInt8.ofNat number)) ∨
        upperDigits[value.toNat]? = some (Char.ofUInt8 (UInt8.ofNat number)) := by
    decide +kernel
  have entry := table byte.toNat byte.toNat_lt value
  rw [UInt8.ofNat_toNat] at entry
  exact entry read

theorem Denotes.lt {character : Char} {value : Nat} (denotes : Denotes character value) :
    value < 16 := by
  rcases denotes with standing | standing
  · exact (List.getElem?_eq_some_iff.mp standing).1
  · exact (List.getElem?_eq_some_iff.mp standing).1

/-- A digit is one byte long, and its value is read from that byte. -/
theorem Denotes.read {character : Char} {value : Nat} (denotes : Denotes character value) :
    String.utf8EncodeChar character = [character.toUInt8] ∧
      value? character.toUInt8 = some (UInt8.ofNat value) := by
  have table : ∀ entry ∈ lowerDigits.zipIdx ++ upperDigits.zipIdx,
      String.utf8EncodeChar entry.1 = [entry.1.toUInt8] ∧
        value? entry.1.toUInt8 = some (UInt8.ofNat entry.2) := by decide +kernel
  refine table (character, value) (List.mem_append.mpr ?_)
  exact denotes.imp List.mk_mem_zipIdx_iff_getElem?.mpr List.mk_mem_zipIdx_iff_getElem?.mpr

theorem denotes_digit {value : Nat} (small : value < 16) : Denotes (digit value) value := by
  have table : ∀ value < 16, lowerDigits[value]? = some (digit value) := by decide +kernel
  exact .inl (table value small)

theorem isDigit_iff (byte : UInt8) : IsDigit byte ↔ ∃ value, value? byte = some value := by
  constructor
  · intro isDigit
    obtain ⟨value, denotes⟩ : ∃ value, Denotes (Char.ofUInt8 byte) value := by
      rcases List.mem_append.mp isDigit with member | member
      · exact (List.mem_iff_getElem?.mp member).imp fun _ => .inl
      · exact (List.mem_iff_getElem?.mp member).imp fun _ => .inr
    have read := denotes.read.2
    rw [toUInt8_ofUInt8] at read
    exact ⟨_, read⟩
  · rintro ⟨value, read⟩
    rcases denotes_of_value? read with standing | standing
    · exact List.mem_append_left _ (List.mem_of_getElem? standing)
    · exact List.mem_append_right _ (List.mem_of_getElem? standing)

theorem not_isDigit_iff (byte : UInt8) : ¬ IsDigit byte ↔ value? byte = none := by
  rw [isDigit_iff, ← Option.ne_none_iff_exists', Classical.not_not]

/-! ### Texts that spell bytes -/

/-- Two digits for each byte, its high half first. -/
inductive Spells : List Char → Bytes → Prop
  | nil : Spells [] []
  | pair {high low : Char} {byte : UInt8} {digits : List Char} {bytes : Bytes}
      (first : Denotes high (byte.toNat / 16)) (second : Denotes low (byte.toNat % 16))
      (others : Spells digits bytes) : Spells (high :: low :: digits) (byte :: bytes)

theorem spells_encode (bytes : Bytes) : Spells (encode bytes).toList bytes := by
  rw [encode, String.toList_ofList]
  induction bytes with
  | nil => exact .nil
  | cons byte bytes inductionHypothesis =>
    have small := byte.toNat_lt
    exact .pair (denotes_digit (by omega)) (denotes_digit (by omega)) inductionHypothesis

theorem Spells.length_eq {digits : List Char} {bytes : Bytes} (spells : Spells digits bytes) :
    (digits.flatMap String.utf8EncodeChar).length = 2 * bytes.length := by
  induction spells with
  | nil => rfl
  | pair first second _ inductionHypothesis =>
    simp only [List.flatMap_cons, first.read.1, second.read.1, List.singleton_append,
      List.length_cons, inductionHypothesis]
    omega

/-- Two halves fit into a byte. -/
theorem toNat_halves {high low : UInt8} (highSmall : high.toNat < 16) (lowSmall : low.toNat < 16) :
    (high * 16 + low).toNat = high.toNat * 16 + low.toNat := by
  rw [UInt8.toNat_add, UInt8.toNat_mul]
  simp only [UInt8.reduceToNat]
  omega

theorem ofNat_halves (byte : UInt8) :
    UInt8.ofNat (byte.toNat / 16) * 16 + UInt8.ofNat (byte.toNat % 16) = byte := by
  have small := byte.toNat_lt
  have high : (UInt8.ofNat (byte.toNat / 16)).toNat = byte.toNat / 16 :=
    UInt8.toNat_ofNat_of_lt' (show _ < 256 by omega)
  have low : (UInt8.ofNat (byte.toNat % 16)).toNat = byte.toNat % 16 :=
    UInt8.toNat_ofNat_of_lt' (show _ < 256 by omega)
  rw [← UInt8.toNat_inj, toNat_halves (by omega) (by omega), high, low]
  omega

theorem decodeFrom_of_spells {digits : List Char} {bytes : Bytes} (spells : Spells digits bytes)
    (position : Nat) :
    decodeFrom position (digits.flatMap String.utf8EncodeChar) = .ok bytes := by
  induction spells generalizing position with
  | nil => rfl
  | pair first second _ inductionHypothesis =>
    simp only [List.flatMap_cons, first.read.1, second.read.1, List.singleton_append, decodeFrom,
      first.read.2, second.read.2, inductionHypothesis, ofNat_halves, Except.map]

theorem utf8EncodeChar_of_value? {byte value : UInt8} (read : value? byte = some value) :
    String.utf8EncodeChar (Char.ofUInt8 byte) = [byte] := by
  rw [(denotes_of_value? read).read.1, toUInt8_ofUInt8]

/-- What is decoded spells the result, and it has no other bytes than its digits have. -/
theorem exists_spells_of_decodeFrom {position : Nat} {text bytes : Bytes}
    (decoded : decodeFrom position text = .ok bytes) :
    ∃ digits, Spells digits bytes ∧ digits.flatMap String.utf8EncodeChar = text := by
  fun_induction decodeFrom position text generalizing bytes with
  | case1 =>
    cases decoded
    exact ⟨[], .nil, rfl⟩
  | case2 => cases decoded
  | case3 => cases decoded
  | case4 => cases decoded
  | case5 position high low rest h l lowRead highRead inductionHypothesis =>
    cases others : decodeFrom (position + 2) rest with
    | error error =>
      rw [others] at decoded
      cases decoded
    | ok otherBytes =>
      rw [others] at decoded
      cases decoded
      obtain ⟨digits, spells, rfl⟩ := inductionHypothesis others
      have highHalf := denotes_of_value? highRead
      have lowHalf := denotes_of_value? lowRead
      have highSmall := highHalf.lt
      have lowSmall := lowHalf.lt
      have number := toNat_halves highSmall lowSmall
      refine ⟨Char.ofUInt8 high :: Char.ofUInt8 low :: digits, .pair ?_ ?_ spells, ?_⟩
      · rwa [number, show (h.toNat * 16 + l.toNat) / 16 = h.toNat by omega]
      · rwa [number, show (h.toNat * 16 + l.toNat) % 16 = l.toNat by omega]
      · rw [List.flatMap_cons, List.flatMap_cons, utf8EncodeChar_of_value? highRead,
          utf8EncodeChar_of_value? lowRead]
        rfl

theorem decodeFrom_of_decodeBytes {text bytes : Bytes} (decoded : decodeBytes text = .ok bytes) :
    decodeFrom 0 text = .ok bytes := by
  rw [decodeBytes] at decoded
  split at decoded
  · cases decoded
  · exact decoded

theorem length_of_decodeBytes {text bytes : Bytes} (decoded : decodeBytes text = .ok bytes) :
    text.length = 2 * bytes.length := by
  obtain ⟨digits, spells, rfl⟩ := exists_spells_of_decodeFrom (decodeFrom_of_decodeBytes decoded)
  exact spells.length_eq

/-- A text is decoded exactly if it spells some bytes, and then to these. -/
theorem decodeBytes_eq_ok_iff (text : String) (bytes : Bytes) :
    decodeBytes (utf8 text) = .ok bytes ↔ Spells text.toList bytes := by
  constructor
  · intro decoded
    obtain ⟨digits, spells, same⟩ :=
      exists_spells_of_decodeFrom (decodeFrom_of_decodeBytes decoded)
    have whole : String.ofList digits = text := utf8_injective (by rw [utf8_ofList, same])
    rwa [← whole, String.toList_ofList]
  · intro spells
    rw [decodeBytes, utf8_eq_flatMap, spells.length_eq, if_neg (by omega)]
    exact decodeFrom_of_spells spells 0

/-! ### Texts that spell nothing -/

/-- The first byte that is no digit is told, with the number of bytes before it. -/
theorem decodeFrom_of_not_isDigit {before after : Bytes} {byte : UInt8}
    (even : (before ++ byte :: after).length % 2 = 0) (digits : ∀ earlier ∈ before, IsDigit earlier)
    (wrong : ¬ IsDigit byte) (position : Nat) :
    decodeFrom position (before ++ byte :: after) =
      .error (.invalidDigit byte (position + before.length)) := by
  rw [not_isDigit_iff] at wrong
  match before, digits with
  | [], _ =>
    match after with
    | [] => cases even
    | low :: rest => simp only [List.nil_append, decodeFrom, wrong, List.length_nil, Nat.add_zero]
  | [high], digits =>
    obtain ⟨h, highRead⟩ := (isDigit_iff high).mp (digits high List.mem_cons_self)
    simp only [List.singleton_append, decodeFrom, highRead, wrong, List.length_singleton]
  | high :: low :: before, digits =>
    obtain ⟨highDigit, lowDigit, digits⟩ :
        IsDigit high ∧ IsDigit low ∧ ∀ earlier ∈ before, IsDigit earlier := by
      simpa only [List.forall_mem_cons] using digits
    obtain ⟨h, highRead⟩ := (isDigit_iff high).mp highDigit
    obtain ⟨l, lowRead⟩ := (isDigit_iff low).mp lowDigit
    have evenRest : (before ++ byte :: after).length % 2 = 0 := by
      simp only [List.length_append, List.length_cons] at even ⊢
      omega
    have later := decodeFrom_of_not_isDigit evenRest digits ((not_isDigit_iff byte).mpr wrong)
      (position + 2)
    simp only [List.cons_append, decodeFrom, highRead, lowRead, later, Except.map,
      List.length_cons]
    congr 2
    omega

theorem exists_decodeFrom {position : Nat} {text : Bytes} (even : text.length % 2 = 0)
    (digits : ∀ byte ∈ text, IsDigit byte) : ∃ bytes, decodeFrom position text = .ok bytes := by
  fun_induction decodeFrom position text with
  | case1 => exact ⟨[], rfl⟩
  | case2 => cases even
  | case3 position high low rest wrong =>
    exact absurd (digits high List.mem_cons_self) ((not_isDigit_iff high).mpr wrong)
  | case4 position high low rest _ wrong =>
    exact absurd (digits low (List.mem_cons_of_mem _ List.mem_cons_self))
      ((not_isDigit_iff low).mpr wrong)
  | case5 position high low rest h l lowRead highRead inductionHypothesis =>
    simp only [List.length_cons] at even
    obtain ⟨bytes, decoded⟩ := inductionHypothesis (by omega) fun byte member =>
      digits byte (List.mem_cons_of_mem _ (List.mem_cons_of_mem _ member))
    exact ⟨_, by rw [decoded]; rfl⟩

theorem exists_decodeBytes {text : Bytes} (even : text.length % 2 = 0)
    (digits : ∀ byte ∈ text, IsDigit byte) : ∃ bytes, decodeBytes text = .ok bytes := by
  rw [decodeBytes, if_neg (by omega)]
  exact exists_decodeFrom even digits

/-- A byte string consists of digits, or it has a first byte that is none. -/
theorem forall_isDigit_or_exists (text : Bytes) :
    (∀ byte ∈ text, IsDigit byte) ∨
      ∃ before byte after, text = before ++ byte :: after ∧
        (∀ earlier ∈ before, IsDigit earlier) ∧ ¬ IsDigit byte := by
  cases found : text.find? fun byte => decide (¬ IsDigit byte) with
  | none =>
    left
    simpa using List.find?_eq_none.mp found
  | some byte =>
    right
    obtain ⟨wrong, before, after, split, digits⟩ := List.find?_eq_some_iff_append.mp found
    exact ⟨before, byte, after, split, by simpa using digits, of_decide_eq_true wrong⟩

/-! ### The mark before a text -/

/-- The text after one leading `0x`, or the text itself if there is none. -/
def withoutMark (text : String) : String :=
  match text.toList with
  | '0' :: 'x' :: digits => String.ofList digits
  | _ => text

theorem dropMark_utf8 (text : String) : dropMark (utf8 text) = utf8 (withoutMark text) := by
  rw [withoutMark]
  split
  · rename_i digits marked
    rw [utf8_eq_flatMap, marked, utf8_ofList]
    rfl
  · rename_i unmarked
    unfold dropMark
    split
    · rename_i rest bytes
      rw [utf8_eq_flatMap] at bytes
      obtain ⟨others, first, bytes⟩ := Utf8.exists_of_flatMap_eq_cons (by decide) bytes
      obtain ⟨digits, rfl, _⟩ := Utf8.exists_of_flatMap_eq_cons (by decide) bytes
      exact absurd first (unmarked digits)
    · rfl

theorem withoutMark_marked (text : String) : withoutMark ("0x" ++ text) = text := by
  rw [withoutMark, String.toList_append]
  exact String.ofList_toList

/-- A text of digits begins with no mark. -/
theorem withoutMark_of_spells {text : String} {bytes : Bytes} (spells : Spells text.toList bytes) :
    withoutMark text = text := by
  rw [withoutMark]
  split
  · rename_i marked
    rw [marked] at spells
    have wrong : value? 'x'.toUInt8 = none := by decide
    cases spells with
    | pair _ second _ => cases wrong.symm.trans second.read.2
  · rfl

end Hex

end StreamLedger
