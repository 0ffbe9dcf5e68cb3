/-
Digests: the 32-byte names of payloads, Merkle nodes, headers and publications. The rest
of the library takes the digest function as a parameter, since nothing it does depends on
which function from byte strings to 32 bytes is used.
-/
import StreamLedger.Text.Hex

namespace StreamLedger

abbrev Digest := Octets 32

/-- A function that names byte strings by digests. -/
abbrev DigestFunction := Bytes → Digest

namespace Digest

/-- The digest that stands for "none before". -/
def zero : Digest := Octets.zero 32

def hex (digest : Digest) : String := Hex.encode digest.bytes

/-- The first four bytes, for people. -/
def short (digest : Digest) : String := Hex.encode (digest.bytes.take 4)

/-- The hexadecimal form with its mark, as messages quote a digest. -/
def marked (digest : Digest) : String := "0x" ++ digest.hex

/-- The abbreviated form that names the type. -/
def labelled (digest : Digest) : String := "Hash(0x" ++ digest.short ++ ")"

/-- Reads 64 hexadecimal digits after at most one `0x`. -/
def parseBytes (text : Bytes) : Except HexError Digest :=
  match Hex.decodeBytes (Hex.dropMark text) with
  | .error error => .error error
  | .ok bytes =>
    match Octets.ofBytes? 32 bytes with
    | some digest => .ok digest
    | none => .error .wrongSize

def parse (text : String) : Except HexError Digest := parseBytes (utf8 text)

/-- Digests in ascending order. -/
def sort (digests : List Digest) : List Digest :=
  digests.mergeSort fun a b => decide (a ≤ b)

end Digest

end StreamLedger
