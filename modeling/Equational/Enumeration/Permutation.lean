import Equational.Enumeration.Cursor
import Equational.Enumeration.LazyList

/-!
# Permutations

All orders of a list, lazily.  Choosing the first element from left to right,
and then an order of the others, lists them lexicographically by position,
beginning with the list as it is.  The empty list has one order.

A cursor goes through the permutations of numbers in the same order, and holds
only the one that it has come to.
-/

namespace Equational

namespace Permutation

variable {α : Type}

/-- Every element of a list with the elements around it, from left to right. -/
def selections : List α → List (α × List α)
  | [] => []
  | a :: rest => (a, rest) :: (selections rest).map fun chosen => (chosen.1, a :: chosen.2)

def ordersOf : Nat → List α → LazyList (List α)
  | 0, _ => .cons [] fun _ => .nil
  | n + 1, list =>
    (LazyList.ofList (selections list)).flatMap fun chosen =>
      (ordersOf n chosen.2).map (chosen.1 :: ·)

def orders (list : List α) : LazyList (List α) := ordersOf list.length list

def ofSize (n : Nat) : LazyList (List Nat) := orders (List.range n)

/-! ## From one permutation to the next -/

/-- Where the descending end of a list begins, as seen from the given position: it goes on to the
left as long as the element there is not smaller. -/
def descent (order : List Nat) : Nat → Except Fault Nat
  | 0 => .ok 0
  | i + 1 => do
    let before ← Checked.read order i
    let here ← Checked.read order (i + 1)
    if here ≤ before then descent order i else .ok (i + 1)

/-- The last position, from the given one to the left, of an element greater than the pivot. -/
def lastAbove (order : List Nat) (pivot : Nat) : Nat → Except Fault Nat
  | 0 => do
    let here ← Checked.read order 0
    let bound ← Checked.read order pivot
    if here ≤ bound then .error .underflow else .ok 0
  | j + 1 => do
    let here ← Checked.read order (j + 1)
    let bound ← Checked.read order pivot
    if here ≤ bound then lastAbove order pivot j else .ok (j + 1)

/-- The order that follows a list lexicographically, if one does: the element in front of the
descending end gives way to the last greater one, and the end is turned round. -/
def successor (order : List Nat) : Except Fault (Option (List Nat)) :=
  if order.length < 2 then .ok none
  else do
    let last ← Checked.minus order.length 1
    let start ← descent order last
    if start = 0 then .ok none
    else do
      let pivot ← Checked.minus start 1
      let above ← lastAbove order pivot last
      let swapped ← Checked.swap order pivot above
      let next ← Checked.reverseFrom swapped start
      pure (some next)

/-- Where an enumeration of permutations has come to. -/
structure Cursor where
  order : List Nat
  started : Bool
  finished : Bool

namespace Cursor

def ofSize (n : Nat) : Cursor := ⟨List.range n, false, false⟩

def next (cursor : Cursor) : Except Fault (Option (List Nat) × Cursor) :=
  if cursor.finished then .ok (none, cursor)
  else if cursor.started then do
    match ← successor cursor.order with
    | some order => pure (some order, { cursor with order })
    | none => pure (none, { cursor with finished := true })
  else .ok (some cursor.order, { cursor with started := true })

end Cursor

end Permutation

end Equational
