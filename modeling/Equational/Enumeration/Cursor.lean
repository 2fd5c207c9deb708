/-!
# Cursors

A cursor stands in an enumeration and moves on from item to item in place: it
reads and writes positions of a list, and it counts down from them.  Nothing of
this is taken for granted here.  A position that the list does not have, or a
difference below zero, is a fault and ends the enumeration.
-/

namespace Equational

/-- What can go wrong when a cursor moves on. -/
inductive Fault where
  /-- A position that the list does not have. -/
  | outOfRange
  /-- A difference below zero. -/
  | underflow
deriving DecidableEq

namespace Checked

variable {α : Type}

def minus (m n : Nat) : Except Fault Nat :=
  if n ≤ m then .ok (m - n) else .error .underflow

def read (list : List α) (i : Nat) : Except Fault α :=
  match list[i]? with
  | some a => .ok a
  | none => .error .outOfRange

def write (list : List α) (i : Nat) (a : α) : Except Fault (List α) :=
  if i < list.length then .ok (list.set i a) else .error .outOfRange

/-- The elements from one position up to another, the latter without its element. -/
def slice (list : List α) (start stop : Nat) : Except Fault (List α) :=
  if start ≤ stop ∧ stop ≤ list.length then .ok ((list.take stop).drop start)
  else .error .outOfRange

def swap (list : List α) (i j : Nat) : Except Fault (List α) := do
  let first ← read list i
  let second ← read list j
  let list ← write list i second
  write list j first

/-- The list with the elements from a position on turned round. -/
def reverseFrom (list : List α) (i : Nat) : Except Fault (List α) :=
  if i ≤ list.length then .ok (list.take i ++ (list.drop i).reverse) else .error .outOfRange

end Checked

/-- What a cursor answers when it is asked for the given number of items, one after another. -/
def answers {σ α : Type} (next : σ → Except Fault (Option α × σ)) :
    Nat → σ → Except Fault (List (Option α))
  | 0, _ => .ok []
  | count + 1, cursor => do
    let (answer, moved) ← next cursor
    let others ← answers next count moved
    pure (answer :: others)

end Equational
