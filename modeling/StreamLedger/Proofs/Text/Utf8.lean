/-
This file says which byte strings are texts. A character is one to four bytes long. Its first byte
says how many, and in which range the second one lies: after four of the first bytes that range is
narrower than else, since there a longer form than needed, a surrogate or a number above the last
character would begin. A byte string is read as a text exactly if it falls into characters, and
exactly then no defect is found in it.
-/
import StreamLedger.Text.Utf8

namespace StreamLedger

/-! ### Texts and their bytes -/

theorem ofUtf8?_utf8 (text : String) : ofUtf8? (utf8 text) = some text := by
  have bytes : (⟨(utf8 text).toArray⟩ : ByteArray) = text.toByteArray := by
    simp [utf8]
  unfold ofUtf8? String.fromUTF8?
  rw [bytes, dif_pos text.isValidUTF8]
  rfl

/-- A text is written as the bytes it was read from. -/
theorem utf8_of_ofUtf8? {bytes : Bytes} {text : String} (read : ofUtf8? bytes = some text) :
    utf8 text = bytes := by
  unfold ofUtf8? String.fromUTF8? at read
  split at read
  · cases read
    rfl
  · cases read

theorem utf8_injective {first second : String} (same : utf8 first = utf8 second) :
    first = second := by
  have read := ofUtf8?_utf8 first
  rw [same, ofUtf8?_utf8] at read
  exact (Option.some.inj read).symm

theorem utf8_eq_nil_iff (text : String) : utf8 text = [] ↔ text = "" := by
  constructor
  · exact fun empty => utf8_injective empty
  · rintro rfl
    rfl

/-- A text is written character by character. -/
theorem utf8_ofList (characters : List Char) :
    utf8 (String.ofList characters) = characters.flatMap String.utf8EncodeChar := by
  rw [utf8, String.toByteArray_ofList, List.utf8Encode, List.toList_data_toByteArray]

theorem utf8_eq_flatMap (text : String) :
    utf8 text = text.toList.flatMap String.utf8EncodeChar := by
  rw [← utf8_ofList, String.ofList_toList]

namespace Utf8

/-! ### Characters -/

/-- Whether a byte is one of those from `low` to `high`. -/
def within (low high : Nat) (byte : UInt8) : Bool := low ≤ byte.toNat && byte.toNat ≤ high

theorem within_iff {low high : Nat} {byte : UInt8} :
    within low high byte ↔ low ≤ byte.toNat ∧ byte.toNat ≤ high := by
  rw [within, Bool.and_eq_true, decide_eq_true_iff, decide_eq_true_iff]

/-- What follows the first byte of a character that is longer than one byte: a second byte from
`low` to `high`, and `more` continuation bytes after it. -/
inductive Begins (first : UInt8) : (low high more : Nat) → Prop
  | two (range : within 0xC2 0xDF first) : Begins first 0x80 0xBF 0
  /-- Below, two bytes would be enough. -/
  | threeLowest (here : first.toNat = 0xE0) : Begins first 0xA0 0xBF 1
  | three (range : within 0xE1 0xEF first) (other : first.toNat ≠ 0xED) : Begins first 0x80 0xBF 1
  /-- Above, there are surrogates. -/
  | threeUnpaired (here : first.toNat = 0xED) : Begins first 0x80 0x9F 1
  /-- Below, three bytes would be enough. -/
  | fourLowest (here : first.toNat = 0xF0) : Begins first 0x90 0xBF 2
  | four (range : within 0xF1 0xF3 first) : Begins first 0x80 0xBF 2
  /-- Above, there are no characters. -/
  | fourHighest (here : first.toNat = 0xF4) : Begins first 0x80 0x8F 2

/-- The bytes of one character. -/
inductive IsCharacter : Bytes → Prop
  | single {byte : UInt8} (small : byte.toNat ≤ 0x7F) : IsCharacter [byte]
  | longer {first second : UInt8} {low high more : Nat} {others : Bytes}
      (begins : Begins first low high more) (range : within low high second)
      (size : others.length = more) (goOn : ∀ byte ∈ others, within 0x80 0xBF byte) :
      IsCharacter (first :: second :: others)

/-- A byte string that falls into characters. -/
inductive IsText : Bytes → Prop
  | nil : IsText []
  | append {character rest : Bytes} (first : IsCharacter character) (others : IsText rest) :
      IsText (character ++ rest)

theorem within_ofNat {low high number : Nat} (above : low ≤ number) (below : number ≤ high)
    (small : high < 256) : within low high (UInt8.ofNat number) := by
  rw [within_iff, UInt8.toNat_ofNat']
  omega

theorem toNat_ofNat_add {digit base : Nat} (small : digit + base < 256) :
    (UInt8.ofNat (digit + base)).toNat = digit + base := by
  rw [UInt8.toNat_ofNat']
  omega

theorem isCharacter_utf8EncodeChar (character : Char) :
    IsCharacter (String.utf8EncodeChar character) := by
  have valid : character.val.toNat < 0xD800 ∨
    0xDFFF < character.val.toNat ∧ character.val.toNat < 0x110000 := character.valid
  unfold String.utf8EncodeChar
  generalize character.val.toNat = number at valid
  have continuation : ∀ digit, within 0x80 0xBF (UInt8.ofNat (digit % 64 + 128)) := fun digit =>
    within_ofNat (by omega) (by omega) (by decide)
  dsimp only
  split
  · rename_i small
    exact .single (within_iff.mp (within_ofNat (Nat.zero_le _) small (by decide))).2
  split
  · exact .longer (.two (within_ofNat (by omega) (by omega) (by decide))) (continuation _) rfl nofun
  split
  · have goOn : ∀ byte ∈ [UInt8.ofNat (number % 64 + 128)], within 0x80 0xBF byte :=
      List.forall_mem_singleton.mpr (continuation _)
    by_cases lowest : number < 0x1000
    · refine .longer (.threeLowest ?_) (within_ofNat (by omega) (by omega) (by decide)) rfl goOn
      rw [toNat_ofNat_add] <;> omega
    by_cases unpaired : 0xD000 ≤ number ∧ number < 0xE000
    · refine .longer (.threeUnpaired ?_) (within_ofNat (by omega) (by omega) (by decide)) rfl goOn
      rw [toNat_ofNat_add] <;> omega
    · refine .longer (.three (within_ofNat ?_ ?_ (by decide)) ?_) (continuation _) rfl goOn
      · omega
      · omega
      · rw [toNat_ofNat_add] <;> omega
  · have goOn : ∀ byte ∈ [UInt8.ofNat (number / 64 % 64 + 128), UInt8.ofNat (number % 64 + 128)],
        within 0x80 0xBF byte :=
      List.forall_mem_cons.mpr ⟨continuation _, List.forall_mem_singleton.mpr (continuation _)⟩
    by_cases lowest : number < 0x40000
    · refine .longer (.fourLowest ?_) (within_ofNat (by omega) (by omega) (by decide)) rfl goOn
      rw [toNat_ofNat_add] <;> omega
    by_cases highest : 0x100000 ≤ number
    · refine .longer (.fourHighest ?_) (within_ofNat (by omega) (by omega) (by decide)) rfl goOn
      rw [toNat_ofNat_add] <;> omega
    · refine .longer (.four (within_ofNat ?_ ?_ (by decide))) (continuation _) rfl goOn
      · omega
      · omega

/-- Every number that is no surrogate and not too large is that of a character. -/
theorem exists_character (number : Nat) (valid : number.isValidChar) :
    ∃ character : Char, character.val.toNat = number :=
  ⟨Char.ofNatAux number valid, rfl⟩

theorem ofNat_eq (byte : UInt8) {number : Nat} (same : number = byte.toNat) :
    UInt8.ofNat number = byte := by
  rw [same, UInt8.ofNat_toNat]

section

variable {first second third fourth : UInt8} {low high more : Nat}

theorem exists_of_begins_zero (begins : Begins first low high 0) (range : within low high second) :
    ∃ character, String.utf8EncodeChar character = [first, second] := by
  have bounds : 0xC2 ≤ first.toNat ∧ first.toNat ≤ 0xDF ∧ 0x80 ≤ low ∧ high ≤ 0xBF := by
    cases begins with
    | two lead =>
      rw [within_iff] at lead
      omega
  rw [within_iff] at range
  obtain ⟨character, number⟩ :=
    exists_character ((first.toNat - 0xC0) * 64 + (second.toNat - 0x80)) (by omega)
  refine ⟨character, ?_⟩
  unfold String.utf8EncodeChar
  simp only [number]
  rw [if_neg (by omega), if_pos (by omega), ofNat_eq first (by omega),
    ofNat_eq second (by omega)]

theorem exists_of_begins_one (begins : Begins first low high 1) (range : within low high second)
    (final : within 0x80 0xBF third) :
    ∃ character, String.utf8EncodeChar character = [first, second, third] := by
  have bounds : 0xE0 ≤ first.toNat ∧ first.toNat ≤ 0xEF ∧ 0x80 ≤ low ∧ high ≤ 0xBF ∧
      (first.toNat = 0xE0 → 0xA0 ≤ low) ∧ (first.toNat = 0xED → high ≤ 0x9F) := by
    cases begins <;> simp only [within_iff] at * <;> omega
  rw [within_iff] at range final
  obtain ⟨character, number⟩ := exists_character
    (((first.toNat - 0xE0) * 64 + (second.toNat - 0x80)) * 64 + (third.toNat - 0x80)) (by omega)
  refine ⟨character, ?_⟩
  unfold String.utf8EncodeChar
  simp only [number]
  rw [if_neg (by omega), if_neg (by omega), if_pos (by omega), ofNat_eq first (by omega),
    ofNat_eq second (by omega), ofNat_eq third (by omega)]

theorem exists_of_begins_two (begins : Begins first low high 2) (range : within low high second)
    (last : within 0x80 0xBF third) (final : within 0x80 0xBF fourth) :
    ∃ character, String.utf8EncodeChar character = [first, second, third, fourth] := by
  have bounds : 0xF0 ≤ first.toNat ∧ first.toNat ≤ 0xF4 ∧ 0x80 ≤ low ∧ high ≤ 0xBF ∧
      (first.toNat = 0xF0 → 0x90 ≤ low) ∧ (first.toNat = 0xF4 → high ≤ 0x8F) := by
    cases begins <;> simp only [within_iff] at * <;> omega
  rw [within_iff] at range last final
  obtain ⟨character, number⟩ := exists_character
    ((((first.toNat - 0xF0) * 64 + (second.toNat - 0x80)) * 64 +
      (third.toNat - 0x80)) * 64 + (fourth.toNat - 0x80)) (by omega)
  refine ⟨character, ?_⟩
  unfold String.utf8EncodeChar
  simp only [number]
  rw [if_neg (by omega), if_neg (by omega), if_neg (by omega), ofNat_eq first (by omega),
    ofNat_eq second (by omega), ofNat_eq third (by omega),
    ofNat_eq fourth (by omega)]

end

theorem exists_of_isCharacter {bytes : Bytes} (isCharacter : IsCharacter bytes) :
    ∃ character, String.utf8EncodeChar character = bytes := by
  cases isCharacter with
  | @single byte small =>
    obtain ⟨character, number⟩ := exists_character byte.toNat (by omega)
    refine ⟨character, ?_⟩
    unfold String.utf8EncodeChar
    simp only [number, if_pos small, UInt8.ofNat_toNat]
  | @longer first second low high more others begins range size goOn =>
    match others, size with
    | [], rfl => exact exists_of_begins_zero begins range
    | [third], rfl => exact exists_of_begins_one begins range (goOn third List.mem_cons_self)
    | [third, fourth], rfl =>
      exact exists_of_begins_two begins range (goOn third List.mem_cons_self)
        (goOn fourth (List.mem_cons_of_mem _ List.mem_cons_self))
    | _ :: _ :: _ :: _, rfl => cases begins

/-! ### Texts -/

/-- A byte below 128 is a character of its own. -/
theorem exists_of_flatMap_eq_cons {characters : List Char} {byte : UInt8} {rest : Bytes}
    (small : byte.toNat < 128) (same : characters.flatMap String.utf8EncodeChar = byte :: rest) :
    ∃ others, characters = Char.ofUInt8 byte :: others ∧
      others.flatMap String.utf8EncodeChar = rest := by
  cases characters with
  | nil => cases same
  | cons character others =>
    rw [List.flatMap_cons] at same
    unfold String.utf8EncodeChar at same
    dsimp only at same
    repeat' split at same
    · rename_i single
      obtain ⟨head, others⟩ := List.cons.inj same
      refine ⟨_, ?_, others⟩
      congr 1
      refine Char.ext (UInt32.toNat_inj.mp ?_)
      have number := congrArg UInt8.toNat head
      rw [UInt8.toNat_ofNat'] at number
      show character.val.toNat = byte.toUInt32.toNat
      rw [UInt8.toNat_toUInt32]
      omega
    -- The first byte of a longer character is at least 192.
    all_goals
      have number := congrArg UInt8.toNat (List.cons.inj same).1
      rw [UInt8.toNat_ofNat'] at number
      omega

theorem isText_flatMap (characters : List Char) :
    IsText (characters.flatMap String.utf8EncodeChar) := by
  induction characters with
  | nil => exact .nil
  | cons character rest inductionHypothesis =>
    rw [List.flatMap_cons]
    exact .append (isCharacter_utf8EncodeChar character) inductionHypothesis

theorem isText_utf8 (text : String) : IsText (utf8 text) := by
  rw [← String.ofList_toList (s := text), utf8_ofList]
  exact isText_flatMap text.toList

theorem exists_of_isText {bytes : Bytes} (isText : IsText bytes) :
    ∃ characters : List Char, characters.flatMap String.utf8EncodeChar = bytes := by
  induction isText with
  | nil => exact ⟨[], rfl⟩
  | append first others inductionHypothesis =>
    obtain ⟨character, rfl⟩ := exists_of_isCharacter first
    obtain ⟨characters, rfl⟩ := inductionHypothesis
    exact ⟨character :: characters, List.flatMap_cons⟩

/-- The bytes that are read as a text are those that fall into characters. -/
theorem exists_ofUtf8?_iff (bytes : Bytes) :
    (∃ text, ofUtf8? bytes = some text) ↔ IsText bytes := by
  constructor
  · rintro ⟨text, read⟩
    rw [← utf8_of_ofUtf8? read]
    exact isText_utf8 text
  · intro isText
    obtain ⟨characters, rfl⟩ := exists_of_isText isText
    exact ⟨String.ofList characters, utf8_ofList characters ▸ ofUtf8?_utf8 _⟩

/-! ### Defects -/

/-- A second byte in its range and as many continuation bytes as are wanted are found good. -/
theorem continued_eq_ok {low high : Nat} {second : UInt8} {others : Bytes} (seen : Nat)
    (rest : Bytes) (range : within low high second)
    (goOn : ∀ byte ∈ others, within 0x80 0xBF byte) :
    continued (within low high) others.length seen (second :: others ++ rest) =
      .ok (seen + 1 + others.length) := by
  induction others generalizing low high second seen with
  | nil => exact if_pos range
  | cons other others inductionHypothesis =>
    obtain ⟨otherGood, othersGood⟩ := List.forall_mem_cons.mp goOn
    calc continued (within low high) (others.length + 1) seen (second :: other :: others ++ rest)
        = continued (within 0x80 0xBF) others.length (seen + 1) (other :: others ++ rest) :=
          if_pos range
      _ = .ok (seen + 1 + 1 + others.length) := inductionHypothesis (seen + 1) otherGood othersGood
      _ = .ok (seen + 1 + (others.length + 1)) := by rw [Nat.add_right_comm]; rfl

/-- Only such bytes are found good. -/
theorem of_continued_eq_ok {low high more seen length : Nat} {bytes : Bytes}
    (found : continued (within low high) more seen bytes = .ok length) :
    ∃ second others rest, bytes = second :: others ++ rest ∧ within low high second ∧
      others.length = more ∧ (∀ byte ∈ others, within 0x80 0xBF byte) ∧
      length = seen + 1 + more := by
  induction more generalizing low high seen bytes with
  | zero =>
    cases bytes with
    | nil => cases found
    | cons second rest =>
      rw [continued] at found
      split at found
      · rename_i good
        exact ⟨second, [], rest, rfl, good, rfl, nofun, (Except.ok.inj found).symm⟩
      · cases found
  | succ more inductionHypothesis =>
    cases bytes with
    | nil => cases found
    | cons second rest =>
      rw [continued] at found
      split at found
      · rename_i good
        obtain ⟨other, others, rest, rfl, otherGood, size, othersGood, rfl⟩ :=
          inductionHypothesis (show continued (within 0x80 0xBF) _ _ _ = _ from found)
        exact ⟨second, other :: others, rest, rfl, good, congrArg (· + 1) size,
          List.forall_mem_cons.mpr ⟨otherGood, othersGood⟩, by omega⟩
      · cases found

/-- The cases by first byte, each range written in one way. -/
theorem characterLength_eq (first : UInt8) (rest : Bytes) :
    characterLength first rest =
      if first.toNat ≤ 0x7F then .ok 1
      else if within 0xC2 0xDF first then continued (within 0x80 0xBF) 0 1 rest
      else if first.toNat = 0xE0 then continued (within 0xA0 0xBF) 1 1 rest
      else if first.toNat = 0xED then continued (within 0x80 0x9F) 1 1 rest
      else if within 0xE1 0xEF first then continued (within 0x80 0xBF) 1 1 rest
      else if first.toNat = 0xF0 then continued (within 0x90 0xBF) 2 1 rest
      else if within 0xF1 0xF3 first then continued (within 0x80 0xBF) 2 1 rest
      else if first.toNat = 0xF4 then continued (within 0x80 0x8F) 2 1 rest
      else .error (some 1) := by
  simp only [characterLength, beq_iff_eq, ← UInt8.toNat_inj]
  rfl

theorem characterLength_of_small {first : UInt8} (small : first.toNat ≤ 0x7F) (rest : Bytes) :
    characterLength first rest = .ok 1 := by
  rw [characterLength_eq, if_pos small]

theorem characterLength_of_begins {first : UInt8} {low high more : Nat}
    (begins : Begins first low high more) (rest : Bytes) :
    characterLength first rest = continued (within low high) more 1 rest := by
  rw [characterLength_eq]
  cases begins with
  | threeLowest here | threeUnpaired here | fourLowest here | fourHighest here =>
    simp (disch := omega) only [within_iff, if_neg, if_pos]
  | two range | three range other | four range =>
    rw [within_iff] at range
    simp (disch := omega) only [within_iff, if_neg, if_pos]

/-- A first byte that no character has is wrong by itself. -/
theorem begins_or_wrong (first : UInt8) (rest : Bytes) :
    first.toNat ≤ 0x7F ∨ (∃ low high more, Begins first low high more) ∨
      characterLength first rest = .error (some 1) := by
  rw [characterLength_eq]
  split
  · exact .inl ‹_›
  refine .inr ?_
  split
  · exact .inl ⟨_, _, _, .two ‹_›⟩
  split
  · exact .inl ⟨_, _, _, .threeLowest ‹_›⟩
  split
  · exact .inl ⟨_, _, _, .threeUnpaired ‹_›⟩
  split
  · exact .inl ⟨_, _, _, .three ‹_› ‹_›⟩
  split
  · exact .inl ⟨_, _, _, .fourLowest ‹_›⟩
  split
  · exact .inl ⟨_, _, _, .four ‹_›⟩
  split
  · exact .inl ⟨_, _, _, .fourHighest ‹_›⟩
  · exact .inr rfl

/-- A length is found exactly where a character begins, and it is the length of that character. -/
theorem characterLength_eq_ok_iff {first : UInt8} {rest : Bytes} {length : Nat} :
    characterLength first rest = .ok length ↔
      ∃ others after, rest = others ++ after ∧ IsCharacter (first :: others) ∧
        length = others.length + 1 := by
  constructor
  · intro found
    rcases begins_or_wrong first rest with small | ⟨low, high, more, begins⟩ | wrong
    · rw [characterLength_of_small small] at found
      exact ⟨[], rest, rfl, .single small, (Except.ok.inj found).symm⟩
    · rw [characterLength_of_begins begins] at found
      obtain ⟨second, others, after, rfl, range, size, goOn, rfl⟩ := of_continued_eq_ok found
      refine ⟨second :: others, after, rfl, .longer begins range size goOn, ?_⟩
      rw [List.length_cons, size]
      omega
    · rw [wrong] at found
      cases found
  · rintro ⟨others, after, rfl, isCharacter, rfl⟩
    cases isCharacter with
    | single small => exact characterLength_of_small small _
    | @longer _ second low high more others begins range size goOn =>
      subst size
      rw [characterLength_of_begins begins, continued_eq_ok 1 after range goOn, List.length_cons]
      congr 1
      omega

/-- The bytes that still belong to a character are passed over. -/
theorem defectFrom_owed (position : Nat) (others rest : Bytes) :
    defectFrom position others.length (others ++ rest) =
      defectFrom (position + others.length) 0 rest := by
  induction others generalizing position with
  | nil => rfl
  | cons byte others inductionHypothesis =>
    rw [List.length_cons, List.cons_append, defectFrom, inductionHypothesis]
    congr 1
    omega

theorem defectFrom_append {character : Bytes} (isCharacter : IsCharacter character)
    (position : Nat) (rest : Bytes) :
    defectFrom position 0 (character ++ rest) =
      defectFrom (position + character.length) 0 rest := by
  obtain ⟨first, others, rfl⟩ : ∃ first others, character = first :: others := by
    cases isCharacter <;> exact ⟨_, _, rfl⟩
  have length := characterLength_eq_ok_iff.mpr ⟨others, rest, rfl, isCharacter, rfl⟩
  rw [List.cons_append, defectFrom, length]
  simp only [Nat.add_sub_cancel, defectFrom_owed, List.length_cons]
  congr 1
  omega

theorem defectFrom_of_isText {bytes : Bytes} (isText : IsText bytes) (position : Nat) :
    defectFrom position 0 bytes = none := by
  induction isText generalizing position with
  | nil => rfl
  | append first others inductionHypothesis =>
    rw [defectFrom_append first, inductionHypothesis]

/-- Where no defect is found, what follows the owed bytes falls into characters. -/
theorem isText_of_defectFrom {position owed : Nat} {bytes : Bytes}
    (good : defectFrom position owed bytes = none) : IsText (bytes.drop owed) := by
  induction bytes generalizing position owed with
  | nil =>
    rw [List.drop_nil]
    exact .nil
  | cons first rest inductionHypothesis =>
    cases owed with
    | succ owed => exact inductionHypothesis good
    | zero =>
      rw [defectFrom] at good
      split at good
      · rename_i length found
        obtain ⟨others, after, rfl, isCharacter, rfl⟩ := characterLength_eq_ok_iff.mp found
        have afterIsText := inductionHypothesis good
        rw [Nat.add_sub_cancel, List.drop_left] at afterIsText
        exact .append isCharacter afterIsText
      · cases good

/-- No defect is found exactly in the bytes of a text. -/
theorem defect?_eq_none_iff (bytes : Bytes) : defect? bytes = none ↔ IsText bytes :=
  ⟨isText_of_defectFrom, fun isText => defectFrom_of_isText isText 0⟩

/-- Where no text is read, there is a defect to tell of. -/
theorem ofUtf8?_eq_none_iff (bytes : Bytes) :
    ofUtf8? bytes = none ↔ ∃ defect, defect? bytes = some defect := by
  have same : ofUtf8? bytes ≠ none ↔ defect? bytes = none := by
    rw [Option.ne_none_iff_exists', exists_ofUtf8?_iff, defect?_eq_none_iff]
  rw [← Option.ne_none_iff_exists', Ne, ← same, Classical.not_not]

instance : DecidablePred IsText := fun bytes => decidable_of_iff _ (defect?_eq_none_iff bytes)

-- A longer form than needed, a surrogate, a character that ends too early and a whole one.
example : ¬ IsText [0xC0, 0xAF] := by decide
example : ¬ IsText [0xED, 0xA0, 0x80] := by decide
example : ¬ IsText [0x41, 0xE2, 0x82] := by decide
example : IsText [0x41, 0xE2, 0x82, 0xAC] := by decide

end Utf8

end StreamLedger
