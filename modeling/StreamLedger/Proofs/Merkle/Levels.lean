/-
This file proves that joining neighbours level by level builds the tree that is defined by halving.
Over `2 ^ depth` payloads the loop makes exactly `depth` rounds. After each of them the level holds
the roots of the payloads' blocks of one size, in order and without a gap, so the next round finds a
neighbour for every node and joins the two halves of each block of twice that size. The last level
is the root of the one block that is left.
-/
import StreamLedger.Digest.Blake3
import StreamLedger.Proofs.Merkle

namespace StreamLedger.Merkle

variable (H : DigestFunction)

/-! ### The two ways to a root -/

/-- The root by halving: a payload's digest, or the digest of the roots of the two halves. -/
def halvedRoot : List Bytes → Digest
  | [] => Digest.zero
  | [payload] => H payload
  | first :: second :: rest =>
    let leaves := first :: second :: rest
    let half := leaves.length / 2
    H ((halvedRoot (leaves.take half)).bytes ++ (halvedRoot (leaves.drop half)).bytes)
termination_by leaves => leaves.length
decreasing_by
  all_goals
    simp only [List.length_take, List.length_drop, List.length_cons]
    omega

/-- How many nodes of a level go up as they are, for want of a neighbour. -/
def unpaired : List Digest → Nat
  | _ :: _ :: rest => unpaired rest
  | level => level.length

/-- What is seen of the loop over the levels. -/
structure Course where
  rounds : Nat
  /-- How many nodes had no neighbour, all rounds taken together. -/
  unpaired : Nat
  top : Digest
deriving DecidableEq

/-- The loop over the levels, with its rounds and the nodes without a neighbour counted. -/
def course : List Digest → Course
  | [] => ⟨0, 0, Digest.zero⟩
  | [top] => ⟨0, 0, top⟩
  | left :: right :: rest =>
    let level := left :: right :: rest
    let later := course (pairUp H level)
    ⟨later.rounds + 1, unpaired level + later.unpaired, later.top⟩
termination_by level => level.length
decreasing_by
  have := length_pairUp_le H rest
  simp [pairUp]
  omega

variable {H}

/-- Counting changes nothing: the loop ends with the same digest, whatever the level. -/
theorem top_course (level : List Digest) : (course H level).top = foldLevels H level := by
  fun_induction foldLevels H level with
  | case1 => rw [course]
  | case2 => rw [course]
  | case3 left right rest inductionHypothesis => rw [course, inductionHypothesis]

/-! ### One round -/

theorem halvedRoot_singleton (payload : Bytes) : halvedRoot H [payload] = H payload := by
  rw [halvedRoot]

theorem halvedRoot_append {left right : List Bytes} (same : left.length = right.length)
    (notEmpty : 0 < left.length) :
    halvedRoot H (left ++ right) = node H (halvedRoot H left) (halvedRoot H right) := by
  obtain ⟨first, second, rest, whole⟩ :
      ∃ first second rest, left ++ right = first :: second :: rest := by
    match left, right, same, notEmpty with
    | [first], second :: rest, _, _ => exact ⟨first, second, rest, rfl⟩
    | first :: second :: rest, right, _, _ => exact ⟨first, second, rest ++ right, rfl⟩
  have half : (left ++ right).length / 2 = left.length := by
    rw [List.length_append]
    omega
  rw [whole, halvedRoot, ← whole]
  simp only [half, List.take_left, List.drop_left]
  rfl

/-- Neighbouring blocks of payloads put together. -/
def joinBlocks : List (List Bytes) → List (List Bytes)
  | left :: right :: rest => (left ++ right) :: joinBlocks rest
  | blocks => blocks

section

variable {size half : Nat} {blocks : List (List Bytes)}

theorem flatten_joinBlocks (blocks : List (List Bytes)) :
    (joinBlocks blocks).flatten = blocks.flatten := by
  fun_induction joinBlocks blocks with
  | case1 left right rest inductionHypothesis =>
    simp only [List.flatten_cons, inductionHypothesis, List.append_assoc]
  | case2 => rfl

/-- A round over the roots of blocks of one size finds a neighbour for each, and makes them the
roots of the blocks of twice the size. -/
theorem pairUp_roots (count : blocks.length = 2 * half) (notEmpty : 0 < size)
    (sizes : ∀ block ∈ blocks, block.length = size) :
    pairUp H (blocks.map (halvedRoot H)) = (joinBlocks blocks).map (halvedRoot H) ∧
      unpaired (blocks.map (halvedRoot H)) = 0 ∧
      (joinBlocks blocks).length = half ∧
      ∀ block ∈ joinBlocks blocks, block.length = 2 * size := by
  induction half generalizing blocks with
  | zero =>
    obtain rfl : blocks = [] := List.eq_nil_of_length_eq_zero count
    exact ⟨rfl, rfl, rfl, nofun⟩
  | succ half inductionHypothesis =>
    obtain ⟨left, right, rest, rfl, restCount⟩ := exists_pair count
    simp only [List.forall_mem_cons] at sizes
    obtain ⟨leftSize, rightSize, restSizes⟩ := sizes
    obtain ⟨paired, allPaired, length, doubled⟩ := inductionHypothesis restCount restSizes
    have joined := halvedRoot_append (H := H) (leftSize.trans rightSize.symm) (leftSize ▸ notEmpty)
    refine ⟨?_, allPaired, congrArg (· + 1) length, ?_⟩
    · simp only [List.map_cons, pairUp, joinBlocks, joined, paired]
    · refine List.forall_mem_cons.mpr ⟨?_, doubled⟩
      rw [List.length_append, leftSize, rightSize, Nat.two_mul]

end

/-! ### All rounds -/

theorem course_of_pair {level : List Digest} (many : 2 ≤ level.length) :
    course H level =
      ⟨(course H (pairUp H level)).rounds + 1,
        unpaired level + (course H (pairUp H level)).unpaired,
        (course H (pairUp H level)).top⟩ := by
  match level, many with
  | left :: right :: rest, _ => rw [course]

/-- From the roots of blocks of one size the loop goes on to the root of all their payloads. -/
theorem course_roots {rounds size : Nat} {blocks : List (List Bytes)}
    (count : blocks.length = 2 ^ rounds) (notEmpty : 0 < size)
    (sizes : ∀ block ∈ blocks, block.length = size) :
    course H (blocks.map (halvedRoot H)) = ⟨rounds, 0, halvedRoot H blocks.flatten⟩ := by
  induction rounds generalizing blocks size with
  | zero =>
    obtain ⟨block, rfl⟩ := List.length_eq_one_iff.mp count
    rw [List.map_singleton, List.flatten_singleton, course]
  | succ rounds inductionHypothesis =>
    have positive := Nat.two_pow_pos rounds
    rw [Nat.pow_succ'] at count
    obtain ⟨paired, allPaired, length, doubled⟩ := pairUp_roots (H := H) count notEmpty sizes
    have later := inductionHypothesis length (by omega) doubled
    have many : 2 ≤ (blocks.map (halvedRoot H)).length := by
      rw [List.length_map]
      omega
    rw [course_of_pair many, paired, later, allPaired, flatten_joinBlocks]
    rfl

/-- Over `2 ^ depth` payloads the loop over the levels ends after `depth` rounds, no node is ever
without a neighbour, and what it ends with is the root by halving. -/
theorem course_eq_halvedRoot (H : DigestFunction) {leaves : List Bytes} {depth : Nat}
    (size : leaves.length = 2 ^ depth) :
    course H (leaves.map H) = ⟨depth, 0, halvedRoot H leaves⟩ ∧
      rootOf H leaves = halvedRoot H leaves := by
  have first : leaves.map H = (leaves.map ([·])).map (halvedRoot H) := by
    simp only [List.map_map, Function.comp_def, halvedRoot_singleton]
  have counted : course H (leaves.map H) = ⟨depth, 0, halvedRoot H leaves⟩ := by
    rw [first, course_roots (by rwa [List.length_map]) Nat.one_pos (by simp), ← List.flatMap_def,
      List.flatMap_singleton']
  refine ⟨counted, ?_⟩
  rw [rootOf, ← top_course, counted]

/-- Four payloads take two rounds. -/
theorem course_eq_halvedRoot_four :
    let H : DigestFunction := Blake3.digest
    course H [H [1], H [2], H [3], H [4]] =
      ⟨2, 0, node H (node H (H [1]) (H [2])) (node H (H [3]) (H [4]))⟩ := by
  intro H
  have size : ([[1], [2], [3], [4]] : List Bytes).length = 2 ^ 2 := rfl
  have counted := (course_eq_halvedRoot H size).1
  simpa [halvedRoot, node] using counted

end StreamLedger.Merkle
