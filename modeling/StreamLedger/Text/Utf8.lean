/-
The bytes of a text and the text of some bytes, in UTF-8. Where bytes are no text, the
defect says from which byte on they cannot be read and whether they are wrong there or
only end too early.
-/
import StreamLedger.Bytes

namespace StreamLedger

/-- The UTF-8 bytes of a text. -/
def utf8 (text : String) : Bytes := text.toByteArray.data.toList

/-- The text whose UTF-8 bytes these are, if there is one. -/
def ofUtf8? (bytes : Bytes) : Option String := String.fromUTF8? ⟨bytes.toArray⟩

namespace Utf8

/-- Why some bytes are no text: what starts at byte `position` is no character. -/
structure Defect where
  position : Nat
  /-- How many bytes are wrong there; `none` if the bytes end inside the character. -/
  wrong : Option Nat
deriving DecidableEq

/-- Whether a byte goes on with a character that an earlier byte began. -/
def isContinuation (byte : UInt8) : Bool := 0x80 ≤ byte && byte ≤ 0xBF

/-- Checks a second byte by `fits`, then as many continuation bytes as `more` says.
`seen` counts the bytes that were read before, and the result the bytes of the character. -/
def continued (fits : UInt8 → Bool) : (more seen : Nat) → Bytes → Except (Option Nat) Nat
  | _, _, [] => .error none
  | 0, seen, byte :: _ => if fits byte then .ok (seen + 1) else .error (some seen)
  | more + 1, seen, byte :: rest =>
    if fits byte then continued isContinuation more (seen + 1) rest else .error (some seen)

/-- The length of the character that begins with `first`, or how many bytes of it are wrong.
The second byte is held to a narrower range where a longer form than needed, a surrogate
or a number above the last character would begin. -/
def characterLength (first : UInt8) (rest : Bytes) : Except (Option Nat) Nat :=
  if first ≤ 0x7F then .ok 1
  else if 0xC2 ≤ first && first ≤ 0xDF then continued isContinuation 0 1 rest
  else if first == 0xE0 then continued (fun byte => 0xA0 ≤ byte && byte ≤ 0xBF) 1 1 rest
  else if first == 0xED then continued (fun byte => 0x80 ≤ byte && byte ≤ 0x9F) 1 1 rest
  else if 0xE1 ≤ first && first ≤ 0xEF then continued isContinuation 1 1 rest
  else if first == 0xF0 then continued (fun byte => 0x90 ≤ byte && byte ≤ 0xBF) 2 1 rest
  else if 0xF1 ≤ first && first ≤ 0xF3 then continued isContinuation 2 1 rest
  else if first == 0xF4 then continued (fun byte => 0x80 ≤ byte && byte ≤ 0x8F) 2 1 rest
  else .error (some 1)

/-- The first defect at or after `position`, where `owed` bytes still belong to a
character that was checked when it began. -/
def defectFrom : (position owed : Nat) → Bytes → Option Defect
  | _, _, [] => none
  | position, owed + 1, _ :: rest => defectFrom (position + 1) owed rest
  | position, 0, byte :: rest =>
    match characterLength byte rest with
    | .ok length => defectFrom (position + 1) (length - 1) rest
    | .error wrong => some ⟨position, wrong⟩

/-- The first defect of these bytes, or `none` if they are the bytes of a text. -/
def defect? (bytes : Bytes) : Option Defect := defectFrom 0 0 bytes

/-- What a reader is told about a defect. -/
def Defect.message (defect : Defect) : String :=
  match defect.wrong with
  | some wrong => s!"invalid utf-8 sequence of {wrong} bytes from index {defect.position}"
  | none => s!"incomplete utf-8 byte sequence from index {defect.position}"

end Utf8

end StreamLedger
