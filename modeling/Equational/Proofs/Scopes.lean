import Equational.Engine
import Equational.Proofs.Normalization
import Equational.Proofs.WellMade

/-!
# Scopes of bound variables

A bound variable belongs to the nearest lambda around it that carries its name.
Rewriting that keeps to this passes over the variables of a lambda that carries
a name anew.  Applying a lambda rewrites its body without regard to inner
lambdas.  As long as none of them carries the name of the parameter both are the
same; an inner lambda of that name loses its own variables to the outer one.
-/

namespace Equational

def NameMap.without (binds : Bindings) (name : String) : Bindings :=
  ⟨binds.entries.filter fun entry => entry.1 != name⟩

namespace Atom

/-!
## Rewriting by scope

Where no lambda carries the name, rewriting by name keeps to the scopes.
-/

/-- What is bound in the body of a lambda: a name that the lambda carries is its own there. -/
def inScope (own : String) (parameter : Atom) (binds : Bindings) : Bindings :=
  if parameter.variableName? == some own then binds.without own else binds

mutual

/-- Rewrites an atom as an engine does, but leaves the variables called `own` to the lambdas in it
that carry this name. -/
def scopedWith (apply : Place → Atom → Atom → Evaluation Atom) (own : String) (binds : Bindings)
    (place : Place) : Atom → Evaluation (Rewritten Atom)
  | var name type guard index mark =>
    if isInert (var name type guard index mark) binds then
      Rewritten.same (var name type guard index mark)
    else
      match binds.find? name with
      | some atom => .value ⟨atom, true⟩
      | none =>
        if index != 0 then Rewritten.same (var name type guard index mark)
        else do
          let newType ← scopedWith apply own binds (0 :: place) type
          let newGuard ← scopedOption apply own binds (1 :: place) guard
          if newType.changed || newGuard.changed then
            pure ⟨var name newType.value newGuard.value 0 .new, true⟩
          else Rewritten.same (var name type guard index mark)
  | lambda parameter body mark =>
    if isInert (lambda parameter body mark) (inScope own parameter binds) then
      Rewritten.same (lambda parameter body mark)
    else do
      let newBody ← scopedWith apply own (inScope own parameter binds) (0 :: place) body
      if newBody.changed then pure ⟨lambda parameter newBody.value .new, true⟩
      else Rewritten.same (lambda parameter body mark)
  | sequence s mark => do
    let new ← scopedSequence apply own binds place s
    if new.changed then pure ⟨sequence new.value .new, true⟩
    else Rewritten.same (sequence s mark)
  | propertySet properties mark => do
    let new ← scopedProperties apply own binds place properties
    if new.changed then pure ⟨propertySet new.value .new, true⟩
    else Rewritten.same (propertySet properties mark)
  | application head argument bound mark =>
    if isInert (application head argument bound mark) binds then
      Rewritten.same (application head argument bound mark)
    else do
      let newHead ← scopedWith apply own binds (0 :: place) head
      let newArgument ← scopedWith apply own binds (1 :: place) argument
      if newHead.changed || newArgument.changed then
        let applied ← apply place newHead.value newArgument.value
        pure ⟨applied, true⟩
      else Rewritten.same (application head argument bound mark)
  | typeUniverse mark => Rewritten.same (typeUniverse mark)
  | root name mark => Rewritten.same (root name mark)
  | literal value type mark => Rewritten.same (literal value type mark)
  | operator op mark => Rewritten.same (operator op mark)

def scopedSequence (apply : Place → Atom → Atom → Evaluation Atom) (own : String)
    (binds : Bindings) (place : Place) : Sequence Atom → Evaluation (Rewritten (Sequence Atom))
  | ⟨properties, elements⟩ =>
    if isInert (sequence ⟨properties, elements⟩ .new) binds then
      Rewritten.same ⟨properties, elements⟩
    else do
      let newProperties ← scopedProperties apply own binds (0 :: place) properties
      let newElements ← scopedList apply own binds (1 :: place) elements
      if newProperties.changed || newElements.changed then
        pure ⟨.ofList newProperties.value newElements.value, true⟩
      else Rewritten.same ⟨properties, elements⟩

def scopedList (apply : Place → Atom → Atom → Evaluation Atom) (own : String) (binds : Bindings)
    (place : Place) : List Atom → Evaluation (Rewritten (List Atom))
  | [] => Rewritten.same []
  | atom :: rest => do
    let newAtom ← scopedWith apply own binds (0 :: place) atom
    let newRest ← scopedList apply own binds (1 :: place) rest
    pure ⟨newAtom.value :: newRest.value, newAtom.changed || newRest.changed⟩

def scopedOption (apply : Place → Atom → Atom → Evaluation Atom) (own : String)
    (binds : Bindings) (place : Place) : Option Atom → Evaluation (Rewritten (Option Atom))
  | none => Rewritten.same none
  | some atom => do
    let newAtom ← scopedWith apply own binds place atom
    pure ⟨some newAtom.value, newAtom.changed⟩

def scopedProperties (apply : Place → Atom → Atom → Evaluation Atom) (own : String)
    (binds : Bindings) (place : Place) :
    PropertySet Atom → Evaluation (Rewritten (PropertySet Atom))
  | ⟨a, c, i, b, d⟩ =>
    if isInert (propertySet ⟨a, c, i, b, d⟩ .new) binds then Rewritten.same ⟨a, c, i, b, d⟩
    else do
      let newA ← scopedOption apply own binds (0 :: place) a
      let newC ← scopedOption apply own binds (1 :: place) c
      let newI ← scopedOption apply own binds (2 :: place) i
      let newB ← scopedOption apply own binds (3 :: place) b
      let newD ← scopedOption apply own binds (4 :: place) d
      if newA.changed || newC.changed || newI.changed || newB.changed || newD.changed then
        let new := ⟨newA.value, newC.value, newI.value, newB.value, newD.value⟩
        let legal ← Evaluation.ofExcept ((PropertySet.checked new).mapError TermError.property)
        pure ⟨legal, true⟩
      else Rewritten.same ⟨a, c, i, b, d⟩

end

def Leaves (own : String) : Atom → Prop
  | lambda parameter _ _ => parameter.variableName? ≠ some own
  | _ => True

section

variable {apply : Place → Atom → Atom → Evaluation Atom} {own : String} {binds : Bindings}

mutual

theorem rewriteWith_eq_scopedWith : ∀ atom : Atom, atom.Everywhere (Leaves own) →
    ∀ place, rewriteWith apply binds place atom = scopedWith apply own binds place atom
  | typeUniverse _ => fun _ _ => by rw [rewriteWith, scopedWith]
  | root _ _ => fun _ _ => by rw [rewriteWith, scopedWith]
  | literal _ _ _ => fun _ _ => by rw [rewriteWith, scopedWith]
  | operator ⟨_, _, _, _, _⟩ _ => fun _ _ => by rw [rewriteWith, scopedWith]
  | var name type guard index mark => fun h place => by
      rw [rewriteWith, scopedWith]
      cases binds.find? name with
      | some atom => rfl
      | none =>
          rw [rewriteWith_eq_scopedWith type h.2.1, rewriteOption_eq_scopedOption guard h.2.2]
  | lambda parameter body mark => fun h place => by
      have hscope : inScope own parameter binds = binds := by
        rw [inScope, if_neg]
        exact fun heq => h.1 (eq_of_beq heq)
      rw [rewriteWith, scopedWith, hscope, rewriteWith_eq_scopedWith body h.2.2]
  | sequence ⟨properties, elements⟩ mark => fun h place => by
      rw [rewriteWith, scopedWith, rewriteSequence, scopedSequence,
        rewriteProperties_eq_scopedProperties properties h.2.1,
        rewriteList_eq_scopedList elements h.2.2]
  | propertySet properties mark => fun h place => by
      rw [rewriteWith, scopedWith, rewriteProperties_eq_scopedProperties properties h.2]
  | application head argument bound mark => fun h place => by
      rw [rewriteWith, scopedWith, rewriteWith_eq_scopedWith head h.2.1,
        rewriteWith_eq_scopedWith argument h.2.2]

theorem rewriteList_eq_scopedList : ∀ list : List Atom, ListEverywhere (Leaves own) list →
    ∀ place, rewriteList apply binds place list = scopedList apply own binds place list
  | [] => fun _ _ => by rw [rewriteList, scopedList]
  | atom :: rest => fun h place => by
      rw [rewriteList, scopedList, rewriteWith_eq_scopedWith atom h.1,
        rewriteList_eq_scopedList rest h.2]

theorem rewriteOption_eq_scopedOption : ∀ value : Option Atom,
    OptionEverywhere (Leaves own) value →
    ∀ place, rewriteOption apply binds place value = scopedOption apply own binds place value
  | none => fun _ _ => by rw [rewriteOption, scopedOption]
  | some atom => fun h place => by
      rw [rewriteOption, scopedOption, rewriteWith_eq_scopedWith atom h]

theorem rewriteProperties_eq_scopedProperties : ∀ properties : PropertySet Atom,
    PropertiesEverywhere (Leaves own) properties →
    ∀ place, rewriteProperties apply binds place properties =
      scopedProperties apply own binds place properties
  | ⟨a, c, i, b, d⟩ => fun h place => by
      rw [rewriteProperties, scopedProperties, rewriteOption_eq_scopedOption a h.1,
        rewriteOption_eq_scopedOption c h.2.1, rewriteOption_eq_scopedOption i h.2.2.1,
        rewriteOption_eq_scopedOption b h.2.2.2.1, rewriteOption_eq_scopedOption d h.2.2.2.2]

end

end

end Atom

/-!
## Applying a lambda
-/

namespace Engine

open Atom

/-- Puts an argument in those places of the body of a lambda where a variable belongs to its
parameter. -/
def reduce (engine : Engine) (name : String) (type : Atom) (guard : Option Atom) (index : UInt64)
    (mark : Mark) (body argument : Atom) : Evaluation Atom :=
  match engine.nesting with
  | 0 => .error .nesting
  | nesting + 1 =>
    let apply := applyWithin engine.natives nesting
    let evaluate : GuardEvaluator := fun binds atom =>
      (rewriteWith apply binds (2 :: engine.place) atom).andThen fun new => .value new.value
    let outcome := (matchWith evaluate (var name type guard 0 .new)
      (argument.marked (3 :: engine.place)) .empty).andThen Outcome.first
    Evaluation.andThen
      ⟨Event.notices outcome.events, outcome.value.mapError
        (.lambdaParameter (Atom.lambda (var name type guard index mark) body .new))⟩
      fun binds => (scopedWith apply name (binds.marked (4 :: engine.place)) (2 :: engine.place)
        body).andThen fun new => .value new.value

/-- Applying a lambda replaces the variables that belong to its parameter and no others, provided
that no lambda in its body carries the name of the parameter. -/
theorem apply_lambda_eq_reduce {engine : Engine} {name : String} {type body argument : Atom}
    {guard : Option Atom} {index : UInt64} {mark lambdaMark : Mark}
    (h : body.Everywhere (Leaves name)) :
    engine.apply (.lambda (.var name type guard index mark) body lambdaMark) argument =
      engine.reduce name type guard index mark body argument := by
  rcases engine with ⟨natives, nesting, place⟩
  cases nesting with
  | zero => rfl
  | succ nesting =>
      simp only [reduce, ← rewriteWith_eq_scopedWith body h]
      rfl

def idleAt (place : Place) : Engine := { idle with place := place }

def bound (place : Place) (index : UInt64) : Atom :=
  .var (":" ++ Number.natText index.toNat) .any none index (.made (0 :: 3 :: place))

def identity (mark : Mark) : Atom := .lambda (bound [] 1) (bound [] 1) mark

def constant (place : Place) : Atom :=
  .lambda (bound place 2) (.lambda (bound place 1) (bound place 2) .new) .new

/-- What comes of applying `constant` to `identity`: a lambda around one of the same index. -/
def constantIdentity : Atom := .lambda (bound [] 1) (identity (.made [0, 3])) .new

theorem lambda_identity :
    (idle.lambda (.free "z" .any) (.free "z" .any)).result = .ok (identity .new) := rfl

theorem lambda_constant (place : Place) : (((idleAt place).lambda (.free "y" .any)
    (.free "x" .any)) >>= (idleAt place).lambda (.free "x" .any)).result = .ok (constant place) :=
  rfl

theorem apply_constant :
    (idle.apply (constant []) (identity .new)).result = .ok constantIdentity := rfl

theorem apply_lambda_eq_reduce_constant :
    (Atom.lambda (bound [] 1) (bound [] 2) .new).Everywhere (Leaves ":2") ∧
      idle.apply (constant []) (.integer 5) =
        idle.reduce ":2" .any none 2 (.made [0, 3]) (.lambda (bound [] 1) (bound [] 2) .new)
          (.integer 5) := by
  have hbody : (Atom.lambda (bound [] 1) (bound [] 2) .new).Everywhere (Leaves ":2") := by
    refine ⟨?_, ⟨trivial, trivial, trivial⟩, ⟨trivial, trivial, trivial⟩⟩
    intro h
    exact absurd h (by decide)
  exact ⟨hbody, apply_lambda_eq_reduce hbody⟩

/-- The inner of two lambdas of one index loses its variable to the outer one. -/
theorem apply_not_scoped :
    (idle.lambda (.free "z" .any) (.free "z" .any)).result = .ok (identity .new) ∧
    ((idle.lambda (.free "y" .any) (.free "x" .any)) >>=
      idle.lambda (.free "x" .any)).result = .ok (constant []) ∧
    (idle.apply (constant []) (identity .new)).result = .ok constantIdentity ∧
    ∃ result reduced, (idle.apply constantIdentity (.integer 5)).result = .ok result ∧
      (idle.reduce ":1" .any none 1 (.made [0, 3]) (identity (.made [0, 3]))
        (.integer 5)).result = .ok reduced ∧
      (reduced == identity .new) = true ∧ (result == identity .new) = false := by
  have happlied : ((idle.apply constantIdentity (.integer 5)).result.toOption.any
      (! · == identity .new)) = true := by decide +kernel
  have hkept : ((idle.reduce ":1" .any none 1 (.made [0, 3]) (identity (.made [0, 3]))
      (.integer 5)).result.toOption.any (· == identity .new)) = true := by decide +kernel
  rcases exists_result_of_any happlied with ⟨result, hresult, hother⟩
  rcases exists_result_of_any hkept with ⟨reduced, hreduced, hsame⟩
  have hother : (result == identity .new) = false := by simpa using hother
  have hsame : (reduced == identity .new) = true := hsame
  exact ⟨lambda_identity, lambda_constant [], apply_constant, result, reduced, hresult, hreduced,
    hsame, hother⟩

end Engine

end Equational
