/-
Merkle trees over payload lists whose length is a power of two. A leaf is the digest of a
payload and a node the digest of its two children's bytes. The root is folded level by
level; a path lists the digests that a leaf is combined with on its way to the root, in
the order in which the fold of `rootFromPath` takes them: those left of the leaf from the
root downward, and those right of it from the leaf upward.
-/
import StreamLedger.Digest

namespace StreamLedger

/-- Why there is no tree, or no path in it. -/
inductive MerkleError where
  /-- The number of leaves is not a power of two. -/
  | unsupportedShape (leaves : Nat)
  | indexOutOfRange (index leaves : Nat)
deriving DecidableEq

def MerkleError.message : MerkleError → String
  | .unsupportedShape leaves =>
    s!"merkle tree requires a non-zero power-of-two number of leaves, got {leaves}"
  | .indexOutOfRange index leaves => s!"leaf index {index} out of range for {leaves} leaves"

namespace Merkle

variable (H : DigestFunction)

/-- The node over two children. -/
def node (left right : Digest) : Digest := H (left.bytes ++ right.bytes)

/-- The next level: neighbours are joined, and a last one without a neighbour goes up as it is. -/
def pairUp : List Digest → List Digest
  | left :: right :: rest => node H left right :: pairUp rest
  | level => level

theorem length_pairUp_le (level : List Digest) : (pairUp H level).length ≤ level.length := by
  fun_induction pairUp H level with
  | case1 left right rest inductionHypothesis => simp; omega
  | case2 => exact Nat.le_refl _

/-- The last level's only digest, reached by joining neighbours level by level. -/
def foldLevels : List Digest → Digest
  | [] => Digest.zero
  | [top] => top
  | left :: right :: rest => foldLevels (pairUp H (left :: right :: rest))
termination_by level => level.length
decreasing_by
  have := length_pairUp_le H rest
  simp [pairUp]
  omega

/-- The root over payloads, whatever their number. -/
def rootOf (leaves : List Bytes) : Digest := foldLevels H (leaves.map H)

/-- A tree's shape: its number of leaves is a power of two. -/
def isPowerOfTwo (count : Nat) : Bool := count != 0 && 1 <<< Nat.log2 count == count

/-- The root over payloads whose number is a power of two. -/
def root (leaves : List Bytes) : Except MerkleError Digest :=
  if isPowerOfTwo leaves.length then .ok (rootOf H leaves)
  else .error (.unsupportedShape leaves.length)

/-- The path of leaf `index` in a tree of `2 ^ depth` leaves. -/
def pathIn : (depth : Nat) → (leaves : List Bytes) → (index : Nat) → List Digest
  | 0, _, _ => []
  | depth + 1, leaves, index =>
    let half := 1 <<< depth
    if half ≤ index then
      rootOf H (leaves.take half) :: pathIn depth (leaves.drop half) (index - half)
    else
      pathIn depth (leaves.take half) index ++ [rootOf H (leaves.drop half)]

/-- The path of leaf `index`. -/
def path (leaves : List Bytes) (index : Nat) : Except MerkleError (List Digest) :=
  if isPowerOfTwo leaves.length then
    if index < leaves.length then .ok (pathIn H (Nat.log2 leaves.length) leaves index)
    else .error (.indexOutOfRange index leaves.length)
  else .error (.unsupportedShape leaves.length)

/-- Folds the leaf at `index` of a tree of `2 ^ depth` leaves up to its root, and gives the
siblings that were not needed; `none` if they run out. -/
def foldPath (leaf : Digest) :
    (depth index : Nat) → (siblings : List Digest) → Option (Digest × List Digest)
  | 0, _, siblings => some (leaf, siblings)
  | depth + 1, index, siblings =>
    if 1 <<< depth ≤ index then
      match siblings with
      | [] => none
      | left :: siblings =>
        match foldPath leaf depth (index - 1 <<< depth) siblings with
        | none => none
        | some (right, siblings) => some (node H left right, siblings)
    else
      match foldPath leaf depth index siblings with
      | none | some (_, []) => none
      | some (left, right :: siblings) => some (node H left right, siblings)

/-- The root that a payload at `index` and a path lead to. The path's length is the depth of
the tree, and a tree has fewer than 2^64 leaves. -/
def rootFromPath (payload : Bytes) (index : Nat) (path : List Digest) : Option Digest :=
  if path.length < 64 ∧ index < 1 <<< path.length then
    match foldPath H (H payload) path.length index path with
    | some (root, []) => some root
    | _ => none
  else none

/-- Whether a payload at `index` and a path lead to `root`. -/
def verify (root : Digest) (payload : Bytes) (index : Nat) (path : List Digest) : Bool :=
  rootFromPath H payload index path == some root

end Merkle

end StreamLedger
