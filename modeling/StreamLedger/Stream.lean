/-
The names of streams, the series of transactions of one aggregate each. A name has 16 bytes
and is written as 32 hexadecimal digits in groups of 8, 4, 4, 4 and 12.
-/
import StreamLedger.Text.Hex

namespace StreamLedger

abbrev StreamId := Octets 16

namespace StreamId

/-- The form with hyphens, in lower case. -/
def text (id : StreamId) : String :=
  let group (start size : Nat) : String := Hex.encode ((id.bytes.drop start).take size)
  "-".intercalate [group 0 4, group 4 2, group 6 2, group 8 2, group 10 6]

/-- The digits of the form with hyphens, or `none` if a hyphen is not in its place. -/
def withoutHyphens? (text : Bytes) : Option Bytes :=
  let hyphens := [8, 13, 18, 23]
  if text.length = 36 ∧ hyphens.all fun place => text[place]? == some 0x2D then
    some (text.take 8 ++ (text.drop 9).take 4 ++ (text.drop 14).take 4 ++ (text.drop 19).take 4 ++
      text.drop 24)
  else none

/-- The letters `urn:uuid:`. -/
def resourceName : Bytes := [0x75, 0x72, 0x6E, 0x3A, 0x75, 0x75, 0x69, 0x64, 0x3A]

/-- A letter in lower case, and any other byte as it is. -/
def lowerCase (byte : UInt8) : UInt8 := if 0x41 ≤ byte && byte ≤ 0x5A then byte + 0x20 else byte

/-- Whether a text begins with `urn:uuid:`, its letters in either case. -/
def isResourceName (text : Bytes) : Bool := resourceName.isPrefixOf (text.map lowerCase)

/-- The digits of a stream's name. It is written with hyphens, alone, in braces or as a
resource name, or without hyphens and then alone. -/
def digits? (text : Bytes) : Option Bytes :=
  if text.length = 32 then some text
  else if text.length = 38 ∧ text.head? = some 0x7B ∧ text.getLast? = some 0x7D then
    withoutHyphens? ((text.drop 1).take 36)
  else if text.length = 45 ∧ isResourceName text then withoutHyphens? (text.drop 9)
  else withoutHyphens? text

def parse? (text : String) : Option StreamId :=
  match digits? (utf8 text) with
  | none => none
  | some digits =>
    match Hex.decodeBytes digits with
    | .ok bytes => Octets.ofBytes? 16 bytes
    | .error _ => none

end StreamId

end StreamLedger
