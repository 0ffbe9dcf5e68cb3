/-
This file proves that a status record is read back from the bytes it was written as, up to an
empty message, which counts as none. The bytes that are read as a record are a byte up to four and
a text after it, and they are the bytes the record is written as: two records share their bytes
only if they are the same up to an empty message. The order of the statuses is that of their ranks.
-/
import StreamLedger.Proofs.Text.Utf8
import StreamLedger.Status

namespace StreamLedger

namespace Status

/-! ### The order -/

theorem not_lt {a b : Status} : ¬ a < b ↔ b ≤ a := Fin.not_lt

theorem not_le {a b : Status} : ¬ a ≤ b ↔ b < a := Fin.not_le

theorem le_refl (a : Status) : a ≤ a := Fin.le_refl _

theorem le_of_lt {a b : Status} (less : a < b) : a ≤ b := Fin.le_of_lt less

theorem le_trans {a b c : Status} (first : a ≤ b) (second : b ≤ c) : a ≤ c :=
  Fin.le_trans first second

theorem lt_irrefl (a : Status) : ¬ a < a := Nat.lt_irrefl _

theorem unknown_le (a : Status) : unknown ≤ a := Fin.zero_le _

theorem le_finalized (a : Status) : a ≤ finalized := Fin.le_last _

/-! ### The byte -/

theorem ofByte?_toByte (status : Status) : ofByte? status.toByte = some status := by
  cases status <;> rfl

theorem toByte_of_ofByte? {byte : UInt8} {status : Status} (read : ofByte? byte = some status) :
    status.toByte = byte := by
  unfold ofByte? at read
  split at read
  · cases read
    rw [toByte, rank_ofRank, UInt8.ofNat_toNat]
  · cases read

theorem exists_ofByte?_iff (byte : UInt8) :
    (∃ status, ofByte? byte = some status) ↔ byte ≤ 4 := by
  rw [← Option.isSome_iff_exists, ofByte?, UInt8.le_iff_toNat_le, ← Nat.lt_succ_iff]
  split
  · simpa
  · simpa using Nat.not_lt.mp ‹_›

end Status

/-! ### Records -/

namespace StatusRecord

/-- The record as it is read back: an empty message is no message. -/
def kept (record : StatusRecord) : StatusRecord :=
  ⟨record.status, if record.message = some "" then none else record.message⟩

theorem decode_encode (record : StatusRecord) : decode record.encode = .ok record.kept := by
  obtain ⟨status, message⟩ := record
  simp only [encode, decode, Status.ofByte?_toByte, utf8_eq_nil_iff, ofUtf8?_utf8]
  cases message with
  | none => rfl
  | some text =>
    by_cases empty : text = ""
    · simp [kept, empty]
    · simp [kept, empty]

@[simp]
theorem kept_bare (status : Status) : (bare status).kept = bare status := rfl

@[simp]
theorem status_kept (record : StatusRecord) : record.kept.status = record.status := rfl

theorem encode_kept (record : StatusRecord) : record.kept.encode = record.encode := by
  obtain ⟨status, message⟩ := record
  by_cases empty : message = some ""
  · simp [kept, encode, empty]
  · simp [kept, encode, empty]

/-- Bytes are read as a record exactly if it is written as them and says nothing empty. -/
theorem decode_eq_ok_iff {bytes : Bytes} {record : StatusRecord} :
    decode bytes = .ok record ↔ record.encode = bytes ∧ record.kept = record := by
  constructor
  · intro read
    have written : record.encode = bytes := by
      match bytes with
      | [] => cases read
      | byte :: rest =>
        rw [decode] at read
        split at read
        · cases read
        rename_i status known
        rw [encode]
        split at read
        · rename_i empty
          cases read
          rw [Status.toByte_of_ofByte? known, empty]
          rfl
        split at read
        · rename_i text readable
          cases read
          rw [Status.toByte_of_ofByte? known, Option.getD_some, utf8_of_ofUtf8? readable]
        · cases read
    rw [← written, decode_encode] at read
    exact ⟨written, Except.ok.inj read⟩
  · rintro ⟨rfl, same⟩
    rw [decode_encode, same]

theorem exists_decode_iff (bytes : Bytes) :
    (∃ record, decode bytes = .ok record) ↔
      ∃ first rest, bytes = first :: rest ∧ first ≤ 4 ∧ Utf8.IsText rest := by
  constructor
  · rintro ⟨⟨status, message⟩, read⟩
    obtain ⟨rfl, -⟩ := decode_eq_ok_iff.mp read
    exact ⟨_, _, rfl, (Status.exists_ofByte?_iff _).mp ⟨status, status.ofByte?_toByte⟩,
      Utf8.isText_utf8 _⟩
  · rintro ⟨first, rest, rfl, known, isText⟩
    obtain ⟨status, known⟩ := (Status.exists_ofByte?_iff first).mpr known
    obtain ⟨text, readable⟩ := (Utf8.exists_ofUtf8?_iff rest).mpr isText
    have written : encode ⟨status, some text⟩ = first :: rest := by
      rw [encode, Status.toByte_of_ofByte? known, Option.getD_some, utf8_of_ofUtf8? readable]
    exact ⟨_, written ▸ decode_encode _⟩

/-- Records that differ by more than an empty message are never written as the same bytes. -/
theorem encode_eq_encode_iff (a b : StatusRecord) : a.encode = b.encode ↔ a.kept = b.kept := by
  constructor
  · intro same
    have read := congrArg decode same
    rw [decode_encode, decode_encode] at read
    exact Except.ok.inj read
  · intro same
    rw [← encode_kept a, same, encode_kept]

/-- Reading inverts writing, up to an empty message, which comes back as none. The bytes that can be
read are a byte up to four and a text after it, and they are those the record read is written as.
So records that differ in their status, or in a message that says something, are kept apart. -/
theorem decode_inverts_encode :
    (∀ record : StatusRecord, decode record.encode = .ok record.kept) ∧
    (∀ bytes, (∃ record, decode bytes = .ok record) ↔
      ∃ first rest, bytes = first :: rest ∧ first ≤ 4 ∧ Utf8.IsText rest) ∧
    (∀ bytes (record : StatusRecord), decode bytes = .ok record ↔
      record.encode = bytes ∧ record.kept = record) ∧
    ∀ a b : StatusRecord, a.encode = b.encode ↔ a.kept = b.kept :=
  ⟨decode_encode, exists_decode_iff, fun _ _ => decode_eq_ok_iff, encode_eq_encode_iff⟩

end StatusRecord

end StreamLedger
