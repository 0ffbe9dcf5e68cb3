/-
The binary form of stored values. Numbers have a fixed width and their least significant
byte first; a byte string, a text and a list come after their length in eight bytes; an
optional value comes after one byte, 0 or 1, and a value of several kinds after the number
of its kind in four bytes. A format writes a value and reads one from the front of a byte
string, giving what is left, so that the format of a record is made of those of its parts.
-/
import StreamLedger.Text.Utf8

namespace StreamLedger

/-- Why bytes hold no value of a format. -/
inductive WireError where
  /-- The bytes end inside a number, a fixed-length string or a list. -/
  | endOfInput
  /-- The bytes end inside a text or an identifier whose length they gave. -/
  | endOfText
  /-- The byte before an optional value is neither 0 nor 1. -/
  | presence (byte : UInt8)
  /-- There are only `kinds` kinds of the value. -/
  | kind (number : UInt32) (kinds : Nat)
  /-- An identifier has 16 bytes. -/
  | identifierLength (length : Nat)
  | text (defect : Utf8.Defect)
deriving DecidableEq

def WireError.message : WireError → String
  | .endOfInput => "io error: unexpected end of file"
  | .endOfText => "io error: "
  | .presence byte => s!"tag for enum is not valid, found {byte}"
  | .kind number kinds =>
    s!"invalid value: integer `{number}`, expected variant index 0 <= i < {kinds}"
  | .identifierLength length =>
    s!"UUID parsing failed: invalid length: expected 16 bytes, found {length}"
  | .text defect => s!"string is not valid utf8: {defect.message}"

/-- Reads a value from the front of a byte string and gives the bytes after it. -/
abbrev Reader (α : Type) := Bytes → Except WireError (α × Bytes)

/-- A binary format: how a value is written and how it is read. -/
structure Format (α : Type) where
  encode : α → Bytes
  read : Reader α

namespace Format

variable {α β : Type}

/-- The value at the front of `bytes`; what comes after it is not looked at. -/
def decode (format : Format α) (bytes : Bytes) : Except WireError α :=
  (format.read bytes).map (·.1)

/-- The next `size` bytes, or the error `short` if there are fewer. -/
def readBytes (short : WireError) (size : Nat) : Reader Bytes := fun bytes =>
  if size ≤ bytes.length then .ok (bytes.take size, bytes.drop size) else .error short

/-- A number of `width` bytes. -/
def readNumber (width : Nat) : Reader Nat := fun bytes =>
  (readBytes .endOfInput width bytes).map fun (digits, rest) => (ofLittleEndian digits, rest)

def byte : Format UInt8 where
  encode value := [value]
  read
    | [] => .error .endOfInput
    | value :: rest => .ok (value, rest)

def word32 : Format UInt32 where
  encode value := littleEndian 4 value.toNat
  read bytes := (readNumber 4 bytes).map fun (number, rest) => (UInt32.ofNat number, rest)

def word64 : Format UInt64 where
  encode value := littleEndian 8 value.toNat
  read bytes := (readNumber 8 bytes).map fun (number, rest) => (UInt64.ofNat number, rest)

/-- The same format under another type of values. -/
def transport (format : Format α) (wrap : α → β) (unwrap : β → α) : Format β where
  encode value := format.encode (unwrap value)
  read bytes := (format.read bytes).map fun (value, rest) => (wrap value, rest)

/-- A signed number in two's complement. -/
def int64 : Format Int64 := word64.transport UInt64.toInt64 Int64.toUInt64

/-- A byte string of a known length. -/
def octets (size : Nat) : Format (Octets size) where
  encode value := value.bytes
  read bytes :=
    if h : size ≤ bytes.length then
      .ok (⟨bytes.take size, List.length_take_of_le h⟩, bytes.drop size)
    else .error .endOfInput

/-- What `length` says comes first, then what it says the length of. -/
def readAfterLength (body : Nat → Reader α) : Reader α := fun bytes =>
  match word64.read bytes with
  | .error error => .error error
  | .ok (length, rest) => body length.toNat rest

/-- A byte string after its length. -/
def bytes : Format Bytes where
  encode value := word64.encode (UInt64.ofNat value.length) ++ value
  read := readAfterLength (readBytes .endOfInput)

/-- A text after the number of its UTF-8 bytes. -/
def text : Format String where
  encode value := bytes.encode (utf8 value)
  read := readAfterLength fun length input =>
    match readBytes .endOfText length input with
    | .error error => .error error
    | .ok (body, rest) =>
      match ofUtf8? body with
      | some text => .ok (text, rest)
      | none => .error (.text ((Utf8.defect? body).getD ⟨0, none⟩))

/-- An identifier of 16 bytes, which come after their number. -/
def identifier : Format (Octets 16) where
  encode value := bytes.encode value.bytes
  read := readAfterLength fun length input =>
    match readBytes .endOfText length input with
    | .error error => .error error
    | .ok (body, rest) =>
      match Octets.ofBytes? 16 body with
      | some identifier => .ok (identifier, rest)
      | none => .error (.identifierLength length)

/-- Two values, one after the other. -/
def pair (first : Format α) (second : Format β) : Format (α × β) where
  encode value := first.encode value.1 ++ second.encode value.2
  read bytes :=
    match first.read bytes with
    | .error error => .error error
    | .ok (a, rest) => (second.read rest).map fun (b, rest) => ((a, b), rest)

/-- A value or nothing. -/
def optional (format : Format α) : Format (Option α) where
  encode
    | none => [0]
    | some value => 1 :: format.encode value
  read
    | [] => .error .endOfInput
    | byte :: rest =>
      if byte = 0 then .ok (none, rest)
      else if byte = 1 then (format.read rest).map fun (value, rest) => (some value, rest)
      else .error (.presence byte)

/-- The number of a kind, out of `kinds`. -/
def kind (kinds : Nat) : Format (Fin kinds) where
  encode value := word32.encode (UInt32.ofNat value.val)
  read bytes :=
    match word32.read bytes with
    | .error error => .error error
    | .ok (number, rest) =>
      if h : number.toNat < kinds then .ok (⟨number.toNat, h⟩, rest)
      else .error (.kind number kinds)

/-- A value of one of two kinds. -/
def either (first : Format α) (second : Format β) : Format (α ⊕ β) where
  encode
    | .inl value => (kind 2).encode 0 ++ first.encode value
    | .inr value => (kind 2).encode 1 ++ second.encode value
  read bytes :=
    match (kind 2).read bytes with
    | .error error => .error error
    | .ok (number, rest) =>
      if number = 0 then (first.read rest).map fun (value, rest) => (.inl value, rest)
      else (second.read rest).map fun (value, rest) => (.inr value, rest)

/-- Reads `count` values. -/
def readMany (format : Format α) : (count : Nat) → Reader (List α)
  | 0, bytes => .ok ([], bytes)
  | count + 1, bytes =>
    match format.read bytes with
    | .error error => .error error
    | .ok (value, rest) =>
      (readMany format count rest).map fun (values, rest) => (value :: values, rest)

/-- A list after its length. -/
def list (format : Format α) : Format (List α) where
  encode values := word64.encode (UInt64.ofNat values.length) ++ values.flatMap format.encode
  read := readAfterLength (readMany format)

end Format

end StreamLedger
