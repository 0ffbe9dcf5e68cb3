/-
How many transactions the next block takes: the largest power of two among the waiting
ones, up to a limit.
-/

namespace StreamLedger

/-- Unless told otherwise, a block takes at most `2 ^ 20` transactions. -/
def defaultMaxExponent : Nat := 20

/-- The size of the next block when `available` transactions wait and a block takes at most
`2 ^ maxExponent`; zero if none wait. -/
def blockSize (available maxExponent : Nat) : Nat :=
  if available = 0 then 0 else 1 <<< min (Nat.log2 available) maxExponent

theorem blockSize_le {available : Nat} (maxExponent : Nat) :
    blockSize available maxExponent ≤ available := by
  unfold blockSize
  split
  · omega
  · rename_i nonzero
    rw [Nat.one_shiftLeft]
    exact Nat.le_trans (Nat.pow_le_pow_right (by decide) (Nat.min_le_left _ _))
      (Nat.log2_self_le nonzero)

end StreamLedger
