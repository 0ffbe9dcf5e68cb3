/-
BLAKE3 in its plain hash mode with a 32-byte output. The input is cut into chunks of 1024
bytes, which are the leaves of a binary tree; the left subtree of a node takes the largest
power of two of chunks that leaves something for the right one. Every node is a last call
of the compression function that is still to be made, because the root makes it with a
flag that no other node has.
-/
import StreamLedger.Digest

namespace StreamLedger.Blake3

abbrev Words := Vector UInt32

def initialValue : Words 8 :=
  #v[0x6A09E667, 0xBB67AE85, 0x3C6EF372, 0xA54FF53A, 0x510E527F, 0x9B05688C, 0x1F83D9AB, 0x5BE0CD19]

/-- Where each word of the message goes between two rounds. -/
def permutation : Vector (Fin 16) 16 := #v[2, 6, 3, 10, 7, 0, 4, 13, 1, 11, 12, 5, 9, 14, 15, 8]

def chunkStart : UInt32 := 1
def chunkEnd : UInt32 := 2
def parent : UInt32 := 4
def root : UInt32 := 8

def rotateRight (word amount : UInt32) : UInt32 := word >>> amount ||| word <<< (32 - amount)

/-- Mixes two words of the message into four words of the state. -/
def mix (state : Words 16) (a b c d : Fin 16) (x y : UInt32) : Words 16 :=
  let a₁ := state[a] + state[b] + x
  let d₁ := rotateRight (state[d] ^^^ a₁) 16
  let c₁ := state[c] + d₁
  let b₁ := rotateRight (state[b] ^^^ c₁) 12
  let a₂ := a₁ + b₁ + y
  let d₂ := rotateRight (d₁ ^^^ a₂) 8
  let c₂ := c₁ + d₂
  let b₂ := rotateRight (b₁ ^^^ c₂) 7
  (((state.set a a₂).set b b₂).set c c₂).set d d₂

/-- Mixes the columns, then the diagonals. -/
def round (state message : Words 16) : Words 16 :=
  let state := mix state 0 4 8 12 message[0] message[1]
  let state := mix state 1 5 9 13 message[2] message[3]
  let state := mix state 2 6 10 14 message[4] message[5]
  let state := mix state 3 7 11 15 message[6] message[7]
  let state := mix state 0 5 10 15 message[8] message[9]
  let state := mix state 1 6 11 12 message[10] message[11]
  let state := mix state 2 7 8 13 message[12] message[13]
  mix state 3 4 9 14 message[14] message[15]

def rounds : Nat → Words 16 → Words 16 → Words 16
  | 0, state, _ => state
  | count + 1, state, message =>
    rounds count (round state message) (permutation.map fun source => message[source])

/-- A call of the compression function that is still to be made. -/
structure Node where
  chaining : Words 8
  message : Words 16
  counter : UInt64
  length : UInt32
  flags : UInt32

/-- The first half of the compression function's output. -/
def Node.compress (node : Node) (flags : UInt32) : Words 8 :=
  let chaining := node.chaining
  let start : Words 16 := #v[
    chaining[0], chaining[1], chaining[2], chaining[3],
    chaining[4], chaining[5], chaining[6], chaining[7],
    initialValue[0], initialValue[1], initialValue[2], initialValue[3],
    node.counter.toUInt32, (node.counter >>> 32).toUInt32, node.length, node.flags ||| flags]
  let state := rounds 7 start node.message
  Vector.ofFn fun index => state[index.val] ^^^ state[index.val + 8]

/-- A message block: the bytes four to a word, filled up with zeros. -/
def block (bytes : Bytes) : Words 16 :=
  Vector.ofFn fun index => UInt32.ofNat (ofLittleEndian ((bytes.drop (4 * index.val)).take 4))

/-- The node for what is left of a chunk, after `chaining` took in what came before. -/
def chunkNode (counter : UInt64) (chaining : Words 8) (flags : UInt32) (bytes : Bytes) : Node :=
  if 64 < bytes.length then
    let first : Node := ⟨chaining, block (bytes.take 64), counter, 64, flags⟩
    chunkNode counter (first.compress 0) 0 (bytes.drop 64)
  else
    ⟨chaining, block bytes, counter, UInt32.ofNat bytes.length, flags ||| chunkEnd⟩
termination_by bytes.length
decreasing_by simp; omega

/-- How many bytes of a longer input than one chunk belong to the left subtree. -/
def leftLength (length : Nat) : Nat := 1024 <<< Nat.log2 ((length - 1) / 1024)

theorem leftLength_pos (length : Nat) : 0 < leftLength length := by
  rw [leftLength, Nat.shiftLeft_eq]
  exact Nat.mul_pos (by decide) (Nat.two_pow_pos _)

theorem leftLength_lt {length : Nat} (long : 1024 < length) : leftLength length < length := by
  have chunks : (length - 1) / 1024 ≠ 0 := by omega
  have := Nat.log2_self_le chunks
  rw [leftLength, Nat.shiftLeft_eq]
  omega

theorem length_left_lt {bytes : Bytes} (long : 1024 < bytes.length) :
    (bytes.take (leftLength bytes.length)).length < bytes.length := by
  have := leftLength_lt long
  rw [List.length_take]
  omega

theorem length_right_lt {bytes : Bytes} (long : 1024 < bytes.length) :
    (bytes.drop (leftLength bytes.length)).length < bytes.length := by
  have := leftLength_pos bytes.length
  rw [List.length_drop]
  omega

/-- The node for `bytes`, whose first chunk is the chunk number `counter` of the input. -/
def subtree (counter : UInt64) (bytes : Bytes) : Node :=
  if long : 1024 < bytes.length then
    let size := leftLength bytes.length
    have := length_left_lt long
    have := length_right_lt long
    let left := (subtree counter (bytes.take size)).compress 0
    let right := (subtree (counter + UInt64.ofNat (size / 1024)) (bytes.drop size)).compress 0
    ⟨initialValue, left ++ right, 0, 64, parent⟩
  else
    chunkNode counter initialValue chunkStart bytes
termination_by bytes.length
decreasing_by all_goals assumption

def bytesOfWords (words : Words 8) : Bytes :=
  words.toList.flatMap fun word => littleEndian 4 word.toNat

theorem length_bytesOfWords (words : Words 8) : (bytesOfWords words).length = 32 := by
  simp [bytesOfWords, List.length_flatMap, List.map_const']

/-- The BLAKE3 digest of a byte string. -/
def digest (bytes : Bytes) : Digest :=
  ⟨bytesOfWords ((subtree 0 bytes).compress root), length_bytesOfWords _⟩

end StreamLedger.Blake3
