import Equational.Enumeration.Cursor
import Equational.Enumeration.LazyList

/-!
# Groupings

A grouping cuts a list into contiguous runs, none of them empty.  It is given
by markers in ascending order; a marker is the position of the last element of
a run, and the last run needs none.  Groupings are listed lexicographically by
their markers.

A cursor goes through the groupings of a list in the same order, and holds only
the markers that it has come to.
-/

namespace Equational

namespace Grouping

variable {α : Type}

/-- The ascending lists of `count` numbers among the `width` numbers from `low` upwards, in
lexicographic order. -/
def ascending (count : Nat) (low : Nat) : Nat → LazyList (List Nat)
  | 0 => if count = 0 then .cons [] fun _ => .nil else .nil
  | width + 1 =>
    match count with
    | 0 => .cons [] fun _ => .nil
    | count + 1 =>
      ((ascending count (low + 1) width).map (low :: ·)).append fun _ =>
        ascending (count + 1) (low + 1) width

/-- The markers of all groupings of `n` elements into `runs` runs, where the runs are fewer
than the elements. -/
def markers (runs n : Nat) : LazyList (List Nat) :=
  if runs = 0 ∨ n ≤ runs then .nil else ascending (runs - 1) 0 (n - 1)

/-- The markers that a listing starts from, and stays at if it has no groupings. -/
def firstMarkers (runs : Nat) : List Nat := List.range (runs - 1)

/-- Cuts a list, whose first element has the given position, behind every marker. -/
def cut (position : Nat) : List Nat → List α → List (List α)
  | [], list => [list]
  | marker :: rest, list =>
    let size := marker + 1 - position
    list.take size :: cut (marker + 1) rest (list.drop size)

def groupings (runs : Nat) (list : List α) : LazyList (List (List α)) :=
  (markers runs list.length).map fun marks => cut 0 marks list

/-! ## From one grouping to the next -/

/-- Where an enumeration of groupings has come to.  A run is wrapped up before it is given. -/
structure Cursor (α β : Type) where
  list : List α
  wrap : List α → β
  markers : List Nat
  finished : Bool

namespace Cursor

variable {β : Type}

/-- In front of the groupings of a list into the given number of runs. -/
def ofList (runs : Nat) (list : List α) (wrap : List α → β) : Cursor α β :=
  ⟨list, wrap, firstMarkers runs, runs = 0 || list.length ≤ runs⟩

/-- The wrapped runs behind a position: one up to each marker, and the rest. -/
def runsFrom (list : List α) (wrap : List α → β) (start : Nat) :
    List Nat → Except Fault (List β)
  | [] => do
    let run ← Checked.slice list start list.length
    pure [wrap run]
  | marker :: rest => do
    let run ← Checked.slice list start (marker + 1)
    let others ← runsFrom list wrap (marker + 1) rest
    pure (wrap run :: others)

/-- The last of the markers in front of a position that can move on, for a list of `n`
elements. -/
def movable (markers : List Nat) (n : Nat) : Nat → Except Fault (Option Nat)
  | 0 => .ok none
  | i + 1 => do
    let marker ← Checked.read markers i
    let cuts ← Checked.minus n 1
    let room ← Checked.minus cuts markers.length
    if marker < room + i then .ok (some i) else movable markers n i

/-- Puts so many markers right behind the one at a position. -/
def follow (markers : List Nat) (i : Nat) : Nat → Except Fault (List Nat)
  | 0 => .ok markers
  | count + 1 => do
    let marker ← Checked.read markers i
    let moved ← Checked.write markers (i + 1) (marker + 1)
    follow moved (i + 1) count

/-- Moves the last marker that can move on, and the others right behind it. -/
def advance (cursor : Cursor α β) : Except Fault (Cursor α β) := do
  match ← movable cursor.markers cursor.list.length cursor.markers.length with
  | none => pure { cursor with finished := true }
  | some i => do
    let marker ← Checked.read cursor.markers i
    let moved ← Checked.write cursor.markers i (marker + 1)
    let markers ← follow moved i (cursor.markers.length - (i + 1))
    pure { cursor with markers }

def next (cursor : Cursor α β) : Except Fault (Option (List β) × Cursor α β) :=
  if cursor.finished then .ok (none, cursor)
  else do
    let runs ← runsFrom cursor.list cursor.wrap 0 cursor.markers
    let moved ← cursor.advance
    pure (some runs, moved)

end Cursor

end Grouping

end Equational
