/-
Hexadecimal text: two digits a byte, the high half first, written in lower case and read
in either case.
-/
import StreamLedger.Text.Utf8

namespace StreamLedger

/-- Why a text is not the hexadecimal form of the bytes wanted. -/
inductive HexError where
  /-- The text has an odd number of bytes. -/
  | oddLength
  /-- The byte at `position` of the text is no digit. -/
  | invalidDigit (byte : UInt8) (position : Nat)
  /-- The text is hexadecimal, but of another number of bytes than wanted. -/
  | wrongSize
deriving DecidableEq

namespace Hex

/-- The digit for a value below sixteen. -/
def digit (value : Nat) : Char :=
  if value < 10 then Char.ofNat (48 + value) else Char.ofNat (87 + value)

/-- The value of a digit in either case. -/
def value? (byte : UInt8) : Option UInt8 :=
  if 48 ≤ byte && byte ≤ 57 then some (byte - 48)
  else if 97 ≤ byte && byte ≤ 102 then some (byte - 87)
  else if 65 ≤ byte && byte ≤ 70 then some (byte - 55)
  else none

def pair (byte : UInt8) : List Char := [digit (byte.toNat / 16), digit (byte.toNat % 16)]

def encode (bytes : Bytes) : String := String.ofList (bytes.flatMap pair)

/-- Reads pairs of digits that begin at `position` of the text. -/
def decodeFrom (position : Nat) : Bytes → Except HexError Bytes
  | [] => .ok []
  | [_] => .error .oddLength
  | high :: low :: rest =>
    match value? high, value? low with
    | none, _ => .error (.invalidDigit high position)
    | some _, none => .error (.invalidDigit low (position + 1))
    | some h, some l => (decodeFrom (position + 2) rest).map ((h * 16 + l) :: ·)

/-- The bytes a text stands for. An odd length is told before any digit is looked at. -/
def decodeBytes (text : Bytes) : Except HexError Bytes :=
  if text.length % 2 = 1 then .error .oddLength else decodeFrom 0 text

def decode (text : String) : Except HexError Bytes := decodeBytes (utf8 text)

/-- The bytes after one leading `0x`, or all of them if there is none. -/
def dropMark : Bytes → Bytes
  | 0x30 :: 0x78 :: rest => rest
  | text => text

/-- The bytes after every leading `0x`. -/
def dropMarks : Bytes → Bytes
  | 0x30 :: 0x78 :: rest => dropMarks rest
  | text => text

end Hex

/-- A byte as messages quote it: the Latin-1 character in single quotes, where a character
that would not show is written by its number. -/
def quotedByte (byte : UInt8) : String :=
  let inner :=
    if byte == 0 then "\\0"
    else if byte == 9 then "\\t"
    else if byte == 10 then "\\n"
    else if byte == 13 then "\\r"
    else if byte == 39 then "\\'"
    else if byte == 92 then "\\\\"
    else if byte < 32 || (127 ≤ byte && byte ≤ 160) || byte == 173 then
      "\\u\x7b" ++ String.ofList (Nat.toDigits 16 byte.toNat) ++ "\x7d"
    else String.singleton (Char.ofNat byte.toNat)
  "'" ++ inner ++ "'"

def HexError.message : HexError → String
  | .oddLength => "Odd number of digits"
  | .invalidDigit byte position => s!"Invalid character {quotedByte byte} at position {position}"
  | .wrongSize => "Invalid string length"

end StreamLedger
