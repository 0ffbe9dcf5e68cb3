/-
This file proves that the binary form of a value is the only one. What a format reads from the front
of a byte string is a value whose written form stands there, so nothing but what was written is ever
read, whatever the bytes are. Together with the return of what was written this makes the formats of
all stored values one-to-one, and none of their written forms begins another. A table therefore
gives back the value that was put into it, alone or among others.
-/
import StreamLedger.Proofs.Table
import StreamLedger.Proofs.Wire

namespace StreamLedger

namespace Format

variable {α β : Type}

/-- What is read stands at the front of the bytes as it is written. -/
def Canonical (format : Format α) : Prop :=
  ∀ bytes value rest, format.read bytes = .ok (value, rest) → bytes = format.encode value ++ rest

theorem of_map_eq_ok {ε : Type} {result : Except ε α} {f : α → β} {value : β}
    (mapped : result.map f = .ok value) : ∃ inner, result = .ok inner ∧ f inner = value := by
  cases result with
  | error error => cases mapped
  | ok inner => exact ⟨inner, rfl, Except.ok.inj mapped⟩

/-! ### Numbers and byte strings -/

theorem of_readBytes {short : WireError} {size : Nat} {bytes body rest : Bytes}
    (read : readBytes short size bytes = .ok (body, rest)) :
    bytes = body ++ rest ∧ body.length = size := by
  unfold readBytes at read
  split at read
  · rename_i enough
    cases read
    exact ⟨(List.take_append_drop size bytes).symm, List.length_take_of_le enough⟩
  · cases read

theorem of_readNumber {width number : Nat} {bytes rest : Bytes}
    (read : readNumber width bytes = .ok (number, rest)) :
    bytes = littleEndian width number ++ rest ∧ number < 256 ^ width := by
  obtain ⟨⟨digits, after⟩, taken, same⟩ := of_map_eq_ok read
  obtain ⟨rfl, rfl⟩ := Prod.mk.inj same
  obtain ⟨rfl, rfl⟩ := of_readBytes taken
  rw [littleEndian_ofLittleEndian]
  exact ⟨rfl, ofLittleEndian_lt digits⟩

theorem word32_canonical : word32.Canonical := by
  intro bytes value rest read
  obtain ⟨⟨number, after⟩, taken, same⟩ := of_map_eq_ok read
  obtain ⟨rfl, rfl⟩ := Prod.mk.inj same
  obtain ⟨rfl, small⟩ := of_readNumber taken
  simp only [word32, UInt32.toNat_ofNat_of_lt' (Nat.lt_of_lt_of_eq small (by decide))]

theorem word64_canonical : word64.Canonical := by
  intro bytes value rest read
  obtain ⟨⟨number, after⟩, taken, same⟩ := of_map_eq_ok read
  obtain ⟨rfl, rfl⟩ := Prod.mk.inj same
  obtain ⟨rfl, small⟩ := of_readNumber taken
  simp only [word64, UInt64.toNat_ofNat_of_lt' (Nat.lt_of_lt_of_eq small (by decide))]

theorem octets_canonical (size : Nat) : (octets size).Canonical := by
  intro bytes value rest read
  simp only [octets] at read
  split at read
  · cases read
    exact (List.take_append_drop size bytes).symm
  · cases read

/-- A body comes after the length that it was read by. -/
theorem of_readAfterLength {body : Nat → Reader α} {bytes rest : Bytes} {value : α}
    (read : readAfterLength body bytes = .ok (value, rest)) :
    ∃ length tail, bytes = word64.encode length ++ tail ∧
      body length.toNat tail = .ok (value, rest) := by
  unfold readAfterLength at read
  split at read
  · cases read
  · rename_i length tail first
    exact ⟨length, tail, word64_canonical _ _ _ first, read⟩

theorem bytes_canonical : bytes.Canonical := by
  intro input value rest read
  obtain ⟨length, tail, rfl, taken⟩ := of_readAfterLength read
  obtain ⟨rfl, size⟩ := of_readBytes taken
  simp only [bytes, size, UInt64.ofNat_toNat, List.append_assoc]

theorem text_canonical : text.Canonical := by
  intro input value rest read
  simp only [text] at read
  obtain ⟨length, tail, rfl, taken⟩ := of_readAfterLength read
  split at taken
  · cases taken
  · rename_i body after found
    obtain ⟨rfl, size⟩ := of_readBytes found
    split at taken
    · rename_i text readable
      cases taken
      simp only [text, bytes, utf8_of_ofUtf8? readable, size, UInt64.ofNat_toNat,
        List.append_assoc]
    · cases taken

theorem identifier_canonical : identifier.Canonical := by
  intro input value rest read
  simp only [identifier] at read
  obtain ⟨length, tail, rfl, taken⟩ := of_readAfterLength read
  split at taken
  · cases taken
  · rename_i body after found
    obtain ⟨rfl, size⟩ := of_readBytes found
    split at taken
    · rename_i id whole
      cases taken
      simp only [identifier, bytes, Octets.bytes_of_ofBytes? whole, size, UInt64.ofNat_toNat,
        List.append_assoc]
    · cases taken

/-! ### Formats made of formats -/

theorem transport_canonical {format : Format α} {wrap : α → β} {unwrap : β → α}
    (canonical : format.Canonical) (inverse : ∀ value, unwrap (wrap value) = value) :
    (format.transport wrap unwrap).Canonical := by
  intro bytes value rest read
  obtain ⟨⟨inner, after⟩, taken, same⟩ := of_map_eq_ok read
  obtain ⟨rfl, rfl⟩ := Prod.mk.inj same
  simp only [transport, inverse]
  exact canonical _ _ _ taken

theorem pair_canonical {first : Format α} {second : Format β} (firstCanonical : first.Canonical)
    (secondCanonical : second.Canonical) : (first.pair second).Canonical := by
  intro bytes value rest read
  simp only [pair] at read
  split at read
  · cases read
  · rename_i a tail firstRead
    obtain ⟨⟨b, after⟩, secondRead, same⟩ := of_map_eq_ok read
    obtain ⟨rfl, rfl⟩ := Prod.mk.inj same
    rw [firstCanonical _ _ _ firstRead, secondCanonical _ _ _ secondRead]
    simp only [pair, List.append_assoc]

theorem optional_canonical {format : Format α} (canonical : format.Canonical) :
    format.optional.Canonical := by
  intro bytes value rest read
  cases bytes with
  | nil => cases read
  | cons byte tail =>
    simp only [optional] at read
    split at read
    · rename_i absent
      cases read
      rw [absent]
      rfl
    · split at read
      · rename_i present
        obtain ⟨⟨inner, after⟩, taken, same⟩ := of_map_eq_ok read
        obtain ⟨rfl, rfl⟩ := Prod.mk.inj same
        rw [present, canonical _ _ _ taken]
        rfl
      · cases read

theorem kind_canonical (kinds : Nat) : (kind kinds).Canonical := by
  intro bytes value rest read
  simp only [kind] at read
  split at read
  · cases read
  · rename_i number tail taken
    split at read
    · cases read
      simp only [kind, UInt32.ofNat_toNat]
      exact word32_canonical _ _ _ taken
    · cases read

theorem either_canonical {first : Format α} {second : Format β} (firstCanonical : first.Canonical)
    (secondCanonical : second.Canonical) : (first.either second).Canonical := by
  intro bytes value rest read
  simp only [either] at read
  split at read
  · cases read
  · rename_i number tail taken
    have front := kind_canonical 2 _ _ _ taken
    split at read
    · rename_i isFirst
      obtain ⟨⟨inner, after⟩, firstRead, same⟩ := of_map_eq_ok read
      obtain ⟨rfl, rfl⟩ := Prod.mk.inj same
      rw [front, isFirst, firstCanonical _ _ _ firstRead]
      simp only [either, List.append_assoc]
    · rename_i isSecond
      obtain ⟨⟨inner, after⟩, secondRead, same⟩ := of_map_eq_ok read
      obtain ⟨rfl, rfl⟩ := Prod.mk.inj same
      obtain rfl : number = 1 := by omega
      rw [front, secondCanonical _ _ _ secondRead]
      simp only [either, List.append_assoc]

theorem of_readMany {format : Format α} (canonical : format.Canonical) {count : Nat}
    {bytes rest : Bytes} {values : List α}
    (read : readMany format count bytes = .ok (values, rest)) :
    values.length = count ∧ bytes = values.flatMap format.encode ++ rest := by
  induction count generalizing bytes values with
  | zero =>
    cases read
    exact ⟨rfl, rfl⟩
  | succ count inductionHypothesis =>
    simp only [readMany] at read
    split at read
    · cases read
    · rename_i value tail first
      obtain ⟨⟨others, after⟩, othersRead, same⟩ := of_map_eq_ok read
      obtain ⟨rfl, rfl⟩ := Prod.mk.inj same
      obtain ⟨length, whole⟩ := inductionHypothesis othersRead
      rw [canonical _ _ _ first, whole, List.length_cons, length, List.flatMap_cons,
        List.append_assoc]
      exact ⟨rfl, rfl⟩

theorem list_canonical {format : Format α} (canonical : format.Canonical) :
    format.list.Canonical := by
  intro bytes values rest read
  obtain ⟨length, tail, rfl, taken⟩ := of_readAfterLength read
  obtain ⟨size, rfl⟩ := of_readMany canonical taken
  simp only [list, size, UInt64.ofNat_toNat, List.append_assoc]

end Format

/-! ### Records -/

theorem Transaction.format_canonical : Transaction.format.Canonical :=
  Format.transport_canonical
    (Format.pair_canonical (Format.octets_canonical _)
      (Format.pair_canonical Format.identifier_canonical
        (Format.pair_canonical Format.word64_canonical Format.bytes_canonical)))
    fun _ => rfl

theorem Header.format_canonical : Header.format.Canonical :=
  Format.transport_canonical
    (Format.pair_canonical (Format.octets_canonical _)
      (Format.pair_canonical (Format.octets_canonical _)
        (Format.pair_canonical (Format.octets_canonical _)
          (Format.transport_canonical Format.word64_canonical fun _ => rfl))))
    fun _ => rfl

theorem Publication.format_canonical : Publication.format.Canonical :=
  Format.transport_canonical
    (Format.either_canonical (Format.octets_canonical _)
      (Format.pair_canonical Format.bytes_canonical Format.bytes_canonical))
    fun value => by cases value <;> rfl

theorem Block.format_canonical : Block.format.Canonical :=
  Format.transport_canonical
    (Format.pair_canonical Header.format_canonical
      (Format.pair_canonical (Format.optional_canonical Publication.format_canonical)
        (Format.pair_canonical Format.word64_canonical Format.word64_canonical)))
    fun _ => rfl

theorem Status.format_canonical : Status.format.Canonical :=
  Format.transport_canonical (Format.kind_canonical 5) Status.rank_ofRank

theorem StatusRecord.format_canonical : StatusRecord.format.Canonical :=
  Format.transport_canonical
    (Format.pair_canonical Status.format_canonical
      (Format.optional_canonical Format.text_canonical))
    fun _ => rfl

theorem InclusionProof.format_canonical : InclusionProof.format.Canonical :=
  Format.transport_canonical
    (Format.pair_canonical (Format.octets_canonical _)
      (Format.pair_canonical (Format.octets_canonical _)
        (Format.pair_canonical Format.bytes_canonical
          (Format.pair_canonical Format.word64_canonical
            (Format.list_canonical (Format.octets_canonical _))))))
    fun _ => rfl

/-! ### Stored values -/

/-- What a stored value of a format can count on, as long as it fits. -/
structure Format.RoundTrips {α : Type} (format : Format α) (fits : α → Prop) : Prop where
  /-- The value is read back, whatever comes after it. -/
  decode_append : ∀ value, fits value → ∀ rest,
    format.decode (format.encode value ++ rest) = .ok value
  /-- Whatever bytes are read, they begin as the value is written. -/
  encode_isPrefix : ∀ bytes value, format.decode bytes = .ok value → format.encode value <+: bytes
  injective : ∀ first second, fits first → fits second →
    format.encode first = format.encode second → first = second
  prefixFree : ∀ first second, fits first → fits second →
    format.encode first <+: format.encode second → first = second
  read_put : ∀ (table : Table) key value, fits value →
    (table.put format key value).read format key = .ok (some value)
  /-- Of several values put under one key in one step the last one counts. -/
  read_insertAll : ∀ (table : Table) earlier key value later, fits value →
    (∀ entry ∈ later, key ≠ entry.1) →
    (table.insertAll (earlier ++ (key, format.encode value) :: later)).read format key =
      .ok (some value)

section

variable {α : Type} {format : Format α} {fits : α → Prop}

theorem Format.encode_isPrefix (canonical : format.Canonical) {bytes : Bytes} {value : α}
    (decoded : format.decode bytes = .ok value) : format.encode value <+: bytes := by
  obtain ⟨⟨inner, rest⟩, read, rfl⟩ := of_map_eq_ok decoded
  exact ⟨rest, (canonical _ _ _ read).symm⟩

theorem Format.roundTrips (returns : ∀ value, fits value → format.Returns value)
    (canonical : format.Canonical) : format.RoundTrips fits where
  decode_append value valueFits := decode_append (returns value valueFits)
  encode_isPrefix _ _ := encode_isPrefix canonical
  injective first second firstFits secondFits :=
    (returns first firstFits).eq_of_encode_eq (returns second secondFits)
  prefixFree first second firstFits secondFits :=
    (returns first firstFits).eq_of_encode_isPrefix (returns second secondFits)
  read_put table key value valueFits :=
    Table.read_eq ((table.get?_insert key (format.encode value) key).trans (if_pos rfl))
      fun _ same => Option.some.inj same ▸ returns value valueFits
  read_insertAll table earlier _ value later valueFits final :=
    Table.read_eq (table.get?_insertAll_append earlier later final)
      fun _ same => Option.some.inj same ▸ returns value valueFits

end

/-- Every kind of value that a table stores is read as it was written, and only so. Numbers, digests,
headers and statuses always fit, the others as long as the lengths in them fit into eight bytes. -/
theorem roundTrips_stored :
    Format.word64.RoundTrips (fun _ => True) ∧
      (Format.octets 32 : Format Digest).RoundTrips (fun _ => True) ∧
      Transaction.format.RoundTrips Transaction.Fits ∧
      Header.format.RoundTrips (fun _ => True) ∧
      Publication.format.RoundTrips Publication.Fits ∧
      Block.format.RoundTrips Block.Fits ∧
      Status.format.RoundTrips (fun _ => True) ∧
      StatusRecord.format.RoundTrips StatusRecord.Fits ∧
      InclusionProof.format.RoundTrips InclusionProof.Fits :=
  ⟨Format.roundTrips (fun value _ => Format.word64_returns value) Format.word64_canonical,
    Format.roundTrips (fun value _ => Format.octets_returns value) (Format.octets_canonical 32),
    Format.roundTrips (fun _ => Transaction.format_returns) Transaction.format_canonical,
    Format.roundTrips (fun value _ => Header.format_returns value) Header.format_canonical,
    Format.roundTrips (fun _ => Publication.format_returns) Publication.format_canonical,
    Format.roundTrips (fun _ => Block.format_returns) Block.format_canonical,
    Format.roundTrips (fun value _ => Status.format_returns value) Status.format_canonical,
    Format.roundTrips (fun _ => StatusRecord.format_returns) StatusRecord.format_canonical,
    Format.roundTrips (fun _ => InclusionProof.format_returns) InclusionProof.format_canonical⟩

/-- A block with two byte strings of its own, before other bytes, and put after something else
under the same key. -/
theorem roundTrips_stored_block :
    let block : Block :=
      ⟨⟨Digest.zero, Digest.zero, Digest.zero, -1⟩, some (.external [1, 2] []), 4, 7⟩
    let written := Block.format.encode block
    Block.format.decode (written ++ [255]) = .ok block ∧
      (Table.empty.insertAll [([7], [9]), ([7], written), ([8], [9])]).read Block.format [7] =
        .ok (some block) := by
  intro block written
  obtain ⟨_, _, _, _, _, stored, _⟩ := roundTrips_stored
  have fits : block.Fits := by
    intro publication present
    cases present
    exact ⟨by decide, by decide⟩
  exact ⟨stored.decode_append block fits [255],
    stored.read_insertAll Table.empty [([7], [9])] [7] block [([8], [9])] fits (by decide)⟩

end StreamLedger
