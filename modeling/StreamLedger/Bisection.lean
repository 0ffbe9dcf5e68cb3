/-
Finding the place in a list where a condition that holds at first ceases to hold.
-/

namespace StreamLedger

variable {α : Type}

/-- How many elements of `list`, from its beginning on, satisfy `below`, if those that do come
before those that do not. The list is halved until nothing is left; `steps` bounds the
halvings, and the length of the list is enough. -/
def bisect (below : α → Bool) : (steps : Nat) → (list : List α) → Nat
  | 0, _ => 0
  | steps + 1, list =>
    let middle := list.length / 2
    match list.drop middle with
    | [] => 0
    | pivot :: rest =>
      if below pivot then middle + 1 + bisect below steps rest
      else bisect below steps (list.take middle)

/-- The number of elements before the first that does not satisfy `below`, in a list where
none that satisfies it comes later. -/
def partitionPoint (below : α → Bool) (list : List α) : Nat :=
  bisect below list.length list

end StreamLedger
