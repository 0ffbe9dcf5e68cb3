/-
This file proves that what a format writes can be read back. A format returns a value when
reading gives that value from the front of any byte string that begins with what was written,
and leaves what comes after untouched. A format put together from others returns a value whose
parts they return, so the formats of the stored records follow from those of numbers and byte
strings. The only limit is that of the length in front of a byte string, which has eight bytes.
-/
import StreamLedger.Block
import StreamLedger.InclusionProof
import StreamLedger.Proofs.Bytes
import StreamLedger.Proofs.Status

namespace StreamLedger

namespace Format

variable {α β : Type}

/-- Reading gives `value` back from what was written, whatever comes after it. -/
def Returns (format : Format α) (value : α) : Prop :=
  ∀ rest, format.read (format.encode value ++ rest) = .ok (value, rest)

theorem decode_append {format : Format α} {value : α} (returns : format.Returns value)
    (rest : Bytes) : format.decode (format.encode value ++ rest) = .ok value := by
  unfold decode
  rw [returns]
  rfl

theorem decode_encode {format : Format α} {value : α} (returns : format.Returns value) :
    format.decode (format.encode value) = .ok value := by
  have decoded := decode_append returns []
  rwa [List.append_nil] at decoded

/-- Of values that are read back, none is written as the beginning of another. -/
theorem Returns.eq_of_encode_isPrefix {format : Format α} {first second : α}
    (firstReturns : format.Returns first) (secondReturns : format.Returns second)
    (begins : format.encode first <+: format.encode second) : first = second := by
  obtain ⟨rest, whole⟩ := begins
  have decoded := decode_append firstReturns rest
  rw [whole, decode_encode secondReturns] at decoded
  exact (Except.ok.inj decoded).symm

/-- Values that are read back are written differently. -/
theorem Returns.eq_of_encode_eq {format : Format α} {first second : α}
    (firstReturns : format.Returns first) (secondReturns : format.Returns second)
    (same : format.encode first = format.encode second) : first = second :=
  firstReturns.eq_of_encode_isPrefix secondReturns (same ▸ List.prefix_refl _)

/-! ### Numbers and byte strings -/

theorem readBytes_append (short : WireError) (bytes rest : Bytes) :
    readBytes short bytes.length (bytes ++ rest) = .ok (bytes, rest) := by
  unfold readBytes
  rw [if_pos (by simp), List.take_left, List.drop_left]

theorem readNumber_append (width value : Nat) (rest : Bytes) :
    readNumber width (littleEndian width value ++ rest) = .ok (value % 256 ^ width, rest) := by
  have digits := readBytes_append .endOfInput (littleEndian width value) rest
  rw [length_littleEndian] at digits
  unfold readNumber
  rw [digits]
  simp only [Except.map, ofLittleEndian_littleEndian]

theorem word32_returns (value : UInt32) : word32.Returns value := by
  intro rest
  simp only [word32, readNumber_append, Except.map]
  rw [word32_mod, UInt32.ofNat_toNat]

theorem word64_returns (value : UInt64) : word64.Returns value := by
  intro rest
  simp only [word64, readNumber_append, Except.map]
  rw [word64_mod, UInt64.ofNat_toNat]

theorem octets_returns {size : Nat} (value : Octets size) : (octets size).Returns value := by
  intro rest
  obtain ⟨bytes, rfl⟩ := value
  simp only [octets, List.length_append, Nat.le_add_right, dite_true, List.take_left,
    List.drop_left]

/-- The length in front of a byte string says how many bytes the body takes. -/
theorem readAfterLength_append (body : Nat → Reader α) (value rest : Bytes)
    (short : value.length < 2 ^ 64) :
    readAfterLength body (word64.encode (UInt64.ofNat value.length) ++ (value ++ rest)) =
      body value.length (value ++ rest) := by
  unfold readAfterLength
  rw [word64_returns]
  simp only [UInt64.toNat_ofNat_of_lt' short]

theorem bytes_returns {value : Bytes} (short : value.length < 2 ^ 64) : bytes.Returns value := by
  intro rest
  simp only [bytes, List.append_assoc]
  rw [readAfterLength_append _ _ _ short, readBytes_append]

theorem identifier_returns (value : Octets 16) : identifier.Returns value := by
  intro rest
  have short : value.bytes.length < 2 ^ 64 := by
    rw [value.length_bytes]
    decide
  simp only [identifier, bytes, List.append_assoc]
  rw [readAfterLength_append _ _ _ short]
  simp only [readBytes_append, Octets.ofBytes?_bytes]

theorem text_returns {value : String} (short : (utf8 value).length < 2 ^ 64) :
    text.Returns value := by
  intro rest
  simp only [text, bytes, List.append_assoc]
  rw [readAfterLength_append _ _ _ short]
  simp only [readBytes_append, ofUtf8?_utf8]

/-! ### Formats made of formats -/

theorem transport_returns {format : Format α} {wrap : α → β} {unwrap : β → α} {value : β}
    (returns : format.Returns (unwrap value)) (inverse : wrap (unwrap value) = value) :
    (format.transport wrap unwrap).Returns value := by
  intro rest
  simp only [transport]
  rw [returns]
  simp only [Except.map, inverse]

theorem pair_returns {first : Format α} {second : Format β} {value : α × β}
    (firstReturns : first.Returns value.1) (secondReturns : second.Returns value.2) :
    (first.pair second).Returns value := by
  intro rest
  simp only [pair, List.append_assoc]
  rw [firstReturns]
  simp only [secondReturns rest, Except.map]

theorem optional_returns {format : Format α} {value : Option α}
    (returns : ∀ present, value = some present → format.Returns present) :
    format.optional.Returns value := by
  intro rest
  cases value with
  | none => rfl
  | some present =>
    simp only [optional, List.cons_append]
    rw [returns present rfl]
    rfl

theorem kind_returns {kinds : Nat} (few : kinds < 2 ^ 32) (value : Fin kinds) :
    (kind kinds).Returns value := by
  intro rest
  have number : (UInt32.ofNat value.val).toNat = value.val :=
    UInt32.toNat_ofNat_of_lt' (Nat.lt_trans value.isLt few)
  simp only [kind]
  rw [word32_returns]
  simp only [number, value.isLt, dite_true]

theorem either_returns_inl {first : Format α} {second : Format β} {value : α}
    (returns : first.Returns value) : (first.either second).Returns (.inl value) := by
  intro rest
  simp only [either, List.append_assoc]
  rw [kind_returns (by decide) 0]
  simp only [if_true, returns rest, Except.map]

theorem either_returns_inr {first : Format α} {second : Format β} {value : β}
    (returns : second.Returns value) : (first.either second).Returns (.inr value) := by
  intro rest
  simp only [either, List.append_assoc]
  rw [kind_returns (by decide) 1]
  simp only [Fin.reduceEq, if_false, returns rest, Except.map]

theorem readMany_append {format : Format α} {values : List α}
    (returns : ∀ value ∈ values, format.Returns value) (rest : Bytes) :
    readMany format values.length (values.flatMap format.encode ++ rest) = .ok (values, rest) := by
  induction values with
  | nil => rfl
  | cons value values inductionHypothesis =>
    obtain ⟨valueReturns, valuesReturn⟩ := List.forall_mem_cons.mp returns
    simp only [List.length_cons, List.flatMap_cons, List.append_assoc, readMany]
    rw [valueReturns]
    simp only [inductionHypothesis valuesReturn, Except.map]

theorem list_returns {format : Format α} {values : List α} (few : values.length < 2 ^ 64)
    (returns : ∀ value ∈ values, format.Returns value) : format.list.Returns values := by
  intro rest
  simp only [list, List.append_assoc, readAfterLength]
  rw [word64_returns]
  simp only [UInt64.toNat_ofNat_of_lt' few, readMany_append returns]

end Format

/-! ### Records -/

/-- The payload's length can be written in eight bytes, as that of any byte string in memory. -/
def Transaction.Fits (transaction : Transaction) : Prop := transaction.payload.length < 2 ^ 64

/-- The lengths of a publication's byte strings can be written in eight bytes. -/
def Publication.Fits : Publication → Prop
  | .logEntry _ => True
  | .external transaction block => transaction.length < 2 ^ 64 ∧ block.length < 2 ^ 64

/-- The block's publication fits, if it has one. -/
def Block.Fits (block : Block) : Prop :=
  ∀ publication, block.publication = some publication → publication.Fits

/-- The length of the record's message can be written in eight bytes. -/
def StatusRecord.Fits (record : StatusRecord) : Prop :=
  ∀ message, record.message = some message → (utf8 message).length < 2 ^ 64

/-- The length of the proof's payload and the number of its siblings can be written in eight
bytes, as those of any lists in memory. -/
structure InclusionProof.Fits (proof : InclusionProof) : Prop where
  payload : proof.payload.length < 2 ^ 64
  path : proof.path.length < 2 ^ 64

theorem Transaction.format_returns {transaction : Transaction} (fits : transaction.Fits) :
    Transaction.format.Returns transaction :=
  Format.transport_returns
    (Format.pair_returns (Format.octets_returns _)
      (Format.pair_returns (Format.identifier_returns _)
        (Format.pair_returns (Format.word64_returns _) (Format.bytes_returns fits))))
    rfl

theorem Header.format_returns (header : Header) : Header.format.Returns header :=
  Format.transport_returns
    (Format.pair_returns (Format.octets_returns _)
      (Format.pair_returns (Format.octets_returns _)
        (Format.pair_returns (Format.octets_returns _)
          (Format.transport_returns (Format.word64_returns _) rfl))))
    rfl

theorem Publication.format_returns {publication : Publication} (fits : publication.Fits) :
    Publication.format.Returns publication := by
  cases publication with
  | logEntry header =>
    exact Format.transport_returns (Format.either_returns_inl (Format.octets_returns header)) rfl
  | external transaction block =>
    exact Format.transport_returns (Format.either_returns_inr
      (Format.pair_returns (Format.bytes_returns fits.1) (Format.bytes_returns fits.2))) rfl

theorem Block.format_returns {block : Block} (fits : block.Fits) : Block.format.Returns block :=
  Format.transport_returns
    (Format.pair_returns (Header.format_returns _)
      (Format.pair_returns
        (Format.optional_returns fun publication present =>
          Publication.format_returns (fits publication present))
        (Format.pair_returns (Format.word64_returns _) (Format.word64_returns _))))
    rfl

theorem Status.format_returns (status : Status) : Status.format.Returns status :=
  Format.transport_returns (Format.kind_returns (by decide) _) (Status.ofRank_rank status)

theorem StatusRecord.format_returns {record : StatusRecord} (fits : record.Fits) :
    StatusRecord.format.Returns record :=
  Format.transport_returns
    (Format.pair_returns (Status.format_returns _)
      (Format.optional_returns fun message present => Format.text_returns (fits message present)))
    rfl

theorem InclusionProof.format_returns {proof : InclusionProof} (fits : proof.Fits) :
    InclusionProof.format.Returns proof :=
  Format.transport_returns
    (Format.pair_returns (Format.octets_returns _)
      (Format.pair_returns (Format.octets_returns _)
        (Format.pair_returns (Format.bytes_returns fits.payload)
          (Format.pair_returns (Format.word64_returns _)
            (Format.list_returns fits.path fun sibling _ => Format.octets_returns sibling)))))
    rfl

end StreamLedger
