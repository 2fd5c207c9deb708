import Equational.Evaluation

/-!
# Rewriting

Rewriting puts bound atoms in the place of variables and builds the atoms above
them anew: sequences are normalized again, property sets are checked again, and
applications are applied again, in the way that the caller provides.  An atom
in which nothing was replaced is given back as it was.

What is applied is told its place: below the place of an atom, the steps to its
parts have the numbers from 0 upwards, so that no two applications in an atom
have one place.
-/

namespace Equational

/-- What rewriting made of a value. -/
structure Rewritten (α : Type) where
  value : α
  changed : Bool

namespace Rewritten

variable {α : Type}

def same (a : α) : Evaluation (Rewritten α) := .value ⟨a, false⟩

end Rewritten

namespace Atom

/-- Whether rewriting can pass over an atom: there is nothing to replace, or nothing to
replace it by.  A bound variable is constant, and yet can be replaced. -/
def isInert (atom : Atom) (binds : Bindings) : Bool :=
  binds.isEmpty || (atom.isConstant && atom.bindingIndex == 0)

mutual

/-- Rewrites an atom that has the given place, given the way to apply a head to an argument at
a place. -/
def rewriteWith (apply : Place → Atom → Atom → Evaluation Atom) (binds : Bindings)
    (place : Place) : Atom → Evaluation (Rewritten Atom)
  | var name type guard index mark =>
    if isInert (var name type guard index mark) binds then
      Rewritten.same (var name type guard index mark)
    else
      match binds.find? name with
      | some atom => .value ⟨atom, true⟩
      | none =>
        if index != 0 then Rewritten.same (var name type guard index mark)
        else do
          let newType ← rewriteWith apply binds (0 :: place) type
          let newGuard ← rewriteOption apply binds (1 :: place) guard
          if newType.changed || newGuard.changed then
            pure ⟨var name newType.value newGuard.value 0 .new, true⟩
          else Rewritten.same (var name type guard index mark)
  | lambda parameter body mark =>
    if isInert (lambda parameter body mark) binds then
      Rewritten.same (lambda parameter body mark)
    else do
      let newBody ← rewriteWith apply binds (0 :: place) body
      if newBody.changed then pure ⟨lambda parameter newBody.value .new, true⟩
      else Rewritten.same (lambda parameter body mark)
  | sequence s mark => do
    let new ← rewriteSequence apply binds place s
    if new.changed then pure ⟨sequence new.value .new, true⟩
    else Rewritten.same (sequence s mark)
  | propertySet properties mark => do
    let new ← rewriteProperties apply binds place properties
    if new.changed then pure ⟨propertySet new.value .new, true⟩
    else Rewritten.same (propertySet properties mark)
  | application head argument bound mark =>
    if isInert (application head argument bound mark) binds then
      Rewritten.same (application head argument bound mark)
    else do
      let newHead ← rewriteWith apply binds (0 :: place) head
      let newArgument ← rewriteWith apply binds (1 :: place) argument
      if newHead.changed || newArgument.changed then
        let applied ← apply place newHead.value newArgument.value
        pure ⟨applied, true⟩
      else Rewritten.same (application head argument bound mark)
  | typeUniverse mark => Rewritten.same (typeUniverse mark)
  | root name mark => Rewritten.same (root name mark)
  | literal value type mark => Rewritten.same (literal value type mark)
  | operator op mark => Rewritten.same (operator op mark)

/-- Rewrites the properties, then the elements; a changed sequence is normalized. -/
def rewriteSequence (apply : Place → Atom → Atom → Evaluation Atom) (binds : Bindings)
    (place : Place) : Sequence Atom → Evaluation (Rewritten (Sequence Atom))
  | ⟨properties, elements⟩ =>
    if isInert (sequence ⟨properties, elements⟩ .new) binds then
      Rewritten.same ⟨properties, elements⟩
    else do
      let newProperties ← rewriteProperties apply binds (0 :: place) properties
      let newElements ← rewriteList apply binds (1 :: place) elements
      if newProperties.changed || newElements.changed then
        pure ⟨.ofList newProperties.value newElements.value, true⟩
      else Rewritten.same ⟨properties, elements⟩

/-- Rewrites the atoms of a list; the rest of a list counts as one of its parts. -/
def rewriteList (apply : Place → Atom → Atom → Evaluation Atom) (binds : Bindings)
    (place : Place) : List Atom → Evaluation (Rewritten (List Atom))
  | [] => Rewritten.same []
  | atom :: rest => do
    let newAtom ← rewriteWith apply binds (0 :: place) atom
    let newRest ← rewriteList apply binds (1 :: place) rest
    pure ⟨newAtom.value :: newRest.value, newAtom.changed || newRest.changed⟩

def rewriteOption (apply : Place → Atom → Atom → Evaluation Atom) (binds : Bindings)
    (place : Place) : Option Atom → Evaluation (Rewritten (Option Atom))
  | none => Rewritten.same none
  | some atom => do
    let newAtom ← rewriteWith apply binds place atom
    pure ⟨some newAtom.value, newAtom.changed⟩

/-- Rewrites every specified law; a changed property set has to be legal. -/
def rewriteProperties (apply : Place → Atom → Atom → Evaluation Atom) (binds : Bindings)
    (place : Place) : PropertySet Atom → Evaluation (Rewritten (PropertySet Atom))
  | ⟨a, c, i, b, d⟩ =>
    if isInert (propertySet ⟨a, c, i, b, d⟩ .new) binds then Rewritten.same ⟨a, c, i, b, d⟩
    else do
      let newA ← rewriteOption apply binds (0 :: place) a
      let newC ← rewriteOption apply binds (1 :: place) c
      let newI ← rewriteOption apply binds (2 :: place) i
      let newB ← rewriteOption apply binds (3 :: place) b
      let newD ← rewriteOption apply binds (4 :: place) d
      if newA.changed || newC.changed || newI.changed || newB.changed || newD.changed then
        let new := ⟨newA.value, newC.value, newI.value, newB.value, newD.value⟩
        let legal ← Evaluation.ofExcept ((PropertySet.checked new).mapError TermError.property)
        pure ⟨legal, true⟩
      else Rewritten.same ⟨a, c, i, b, d⟩

end

end Atom

end Equational
