import Equational.Atom.Identity

/-!
# Marking atoms

Two atoms may be equal without being one and the same.  An atom that was just
made is named after the place where it was made before it is put anywhere else,
so that it is known again wherever it comes to stand.  Names are different as
long as no two things are made at the same place.
-/

namespace Equational

namespace Mark

/-- Whether the mark tells an atom from all others with the same parts. -/
def isSettled : Mark → Bool
  | common | made _ => true
  | new => false

end Mark

abbrev Counted (α : Type) := StateM Nat α

namespace Counted

def next : Counted Nat := fun n => (n, n + 1)

/-- Names an atom that was just made after a place and its number there, given the way to mark
its parts. -/
def settle (place : Place) (atom : Atom) (parts : Counted (Mark → Atom)) : Counted Atom :=
  match atom.mark with
  | .new => do
    let build ← parts
    let n ← next
    pure (build (.made (n :: place)))
  | _ => pure atom

end Counted

namespace Atom

open Counted

mutual

/-- Marks an atom and all its parts.  Below an atom with a mark everything has one. -/
def markedFrom (place : Place) : Atom → Counted Atom
  | typeUniverse mark => settle place (typeUniverse mark) (pure typeUniverse)
  | root name mark => settle place (root name mark) (pure (root name))
  | literal value type mark =>
    settle place (literal value type mark) do
      let newType ← markedFrom place type
      pure (literal value newType)
  | var name type guard index mark =>
    settle place (var name type guard index mark) do
      let newType ← markedFrom place type
      let newGuard ← optionMarkedFrom place guard
      pure (var name newType newGuard index)
  | lambda parameter body mark =>
    settle place (lambda parameter body mark) do
      let newParameter ← markedFrom place parameter
      let newBody ← markedFrom place body
      pure (lambda newParameter newBody)
  | sequence ⟨properties, elements⟩ mark =>
    settle place (sequence ⟨properties, elements⟩ mark) do
      let newProperties ← propertiesMarkedFrom place properties
      let newElements ← listMarkedFrom place elements
      pure (sequence ⟨newProperties, newElements⟩)
  | propertySet properties mark =>
    settle place (propertySet properties mark) do
      let newProperties ← propertiesMarkedFrom place properties
      pure (propertySet newProperties)
  | operator ⟨name, properties, parameters, resultType, native⟩ mark =>
    settle place (operator ⟨name, properties, parameters, resultType, native⟩ mark) do
      let newProperties ← propertiesMarkedFrom place properties
      let newParameters ← listMarkedFrom place parameters
      let newResult ← optionMarkedFrom place resultType
      pure (operator ⟨name, newProperties, newParameters, newResult, native⟩)
  | application head argument bound mark =>
    settle place (application head argument bound mark) do
      let newHead ← markedFrom place head
      let newArgument ← markedFrom place argument
      pure (application newHead newArgument bound)

def listMarkedFrom (place : Place) : List Atom → Counted (List Atom)
  | [] => pure []
  | atom :: rest => do
    let first ← markedFrom place atom
    let others ← listMarkedFrom place rest
    pure (first :: others)

def optionMarkedFrom (place : Place) : Option Atom → Counted (Option Atom)
  | none => pure none
  | some atom => do
    let new ← markedFrom place atom
    pure (some new)

def propertiesMarkedFrom (place : Place) : PropertySet Atom → Counted (PropertySet Atom)
  | ⟨a, c, i, b, d⟩ => do
    let newA ← optionMarkedFrom place a
    let newC ← optionMarkedFrom place c
    let newI ← optionMarkedFrom place i
    let newB ← optionMarkedFrom place b
    let newD ← optionMarkedFrom place d
    pure ⟨newA, newC, newI, newB, newD⟩

end

/-- The atom, with everything new in it named after a place. -/
def marked (place : Place) (atom : Atom) : Atom := (markedFrom place atom 0).1

def isSame (a b : Atom) : Bool := a.mark.isSettled && a.mark == b.mark && a == b

theorem beq_of_isSame {a b : Atom} (h : a.isSame b = true) : (a == b) = true := by
  simp only [isSame, Bool.and_eq_true] at h
  exact h.2

end Atom

def PropertySet.marked (place : Place) (properties : Properties) : Properties :=
  (Atom.propertiesMarkedFrom place properties 0).1

namespace NameMap

def entriesMarkedFrom (place : Place) :
    List (String × Atom) → Counted (List (String × Atom))
  | [] => pure []
  | (name, atom) :: rest => do
    let first ← Atom.markedFrom place atom
    let others ← entriesMarkedFrom place rest
    pure ((name, first) :: others)

def marked (place : Place) (binds : Bindings) : Bindings :=
  ⟨(entriesMarkedFrom place binds.entries 0).1⟩

end NameMap

end Equational
