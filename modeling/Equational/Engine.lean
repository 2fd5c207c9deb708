import Equational.Atom.Marking
import Equational.Operator.Application
import Equational.Rewriting

/-!
# The engine

An operator is applied to its arguments; a lambda puts its argument in the
place of its parameter; any other head gives a structural application.
Application, rewriting and guards call one another without a bound of their
own, so the nesting of applications is bounded by a number.

What a lambda puts into several places is marked first, so that it stays one
atom there.  At the place of an application the steps 0 and 1 lead to its head
and its argument; step 2 leads to what is evaluated for it, steps 3 and 4 to
what is marked for it.
-/

namespace Equational

namespace Atom

/-- Puts an argument in the places of the parameter of a lambda.  The bound parameter would
match only itself, so a free copy of it is matched. -/
def applyLambda (evaluate : GuardEvaluator) (place : Place) (parameter body argument : Atom) :
    Evaluation Atom :=
  match parameter with
  | var name type guard _ _ =>
    let outcome :=
      (matchWith evaluate (var name type guard 0 .new) (argument.marked (3 :: place))
        .empty).andThen Outcome.first
    Evaluation.andThen
      ⟨Event.notices outcome.events,
        outcome.value.mapError (.lambdaParameter (lambda parameter body .new))⟩
      fun binds => evaluate (binds.marked (4 :: place)) body
  | _ => .error (.notVariable parameter)

/-- Applies a head to an argument.  A head that is neither an operator nor a lambda gives a
structural application. -/
def applyWith (natives : Natives) (evaluate : GuardEvaluator) (place : Place)
    (head argument : Atom) : Evaluation Atom :=
  match head with
  | operator op _ => op.applyWith natives evaluate argument
  | lambda parameter body _ => applyLambda evaluate place parameter body argument
  | _ => .value (application head argument .empty .new)

/-- Applies a head to an argument at a place, with applications nested at most `nesting`
deep. -/
def applyWithin (natives : Natives) : Nat → Place → Atom → Atom → Evaluation Atom
  | 0, _, _, _ => .error .nesting
  | nesting + 1, place, head, argument =>
    applyWith natives
      (fun binds atom =>
        (rewriteWith (applyWithin natives nesting) binds (2 :: place) atom).andThen fun new =>
          .value new.value)
      place head argument

end Atom

/-! ## The engine -/

/-- What evaluation depends on: the native evaluations, how deep applications may be nested,
and the place after which the atoms made on the way are named. -/
structure Engine where
  natives : Natives
  nesting : Nat
  place : Place

namespace Engine

def applyAt (engine : Engine) (place : Place) (head argument : Atom) : Evaluation Atom :=
  Atom.applyWithin engine.natives engine.nesting place head argument

def apply (engine : Engine) (head argument : Atom) : Evaluation Atom :=
  engine.applyAt engine.place head argument

def rewrite (engine : Engine) (binds : Bindings) (atom : Atom) : Evaluation (Rewritten Atom) :=
  Atom.rewriteWith engine.applyAt binds engine.place atom

def rewriteSequence (engine : Engine) (binds : Bindings) (s : Sequence Atom) :
    Evaluation (Rewritten (Sequence Atom)) :=
  Atom.rewriteSequence engine.applyAt binds engine.place s

def rewriteProperties (engine : Engine) (binds : Bindings) (properties : Properties) :
    Evaluation (Rewritten Properties) :=
  Atom.rewriteProperties engine.applyAt binds engine.place properties

/-- The rewritten atom, whether it was changed or not. -/
def evaluate (engine : Engine) : GuardEvaluator := fun binds atom =>
  (engine.rewrite binds atom).andThen fun new => .value new.value

def tryMatch (engine : Engine) (pattern subject : Atom) (binds : Bindings) : Traced Outcome :=
  Atom.matchWith engine.evaluate pattern subject binds

def pattern (engine : Engine) (s : Sequence Atom) : Sequence Element :=
  Sequence.pattern engine.evaluate s

def matchList (engine : Engine) (patterns subjects : List Atom) (binds : Bindings) :
    Traced Outcome :=
  Element.matchAll (Atom.listElements engine.evaluate patterns) subjects binds

def matchLaws (engine : Engine) (pattern subject : Properties) (binds : Bindings) :
    Traced Outcome :=
  (Atom.lawElements engine.evaluate pattern).matchLaws subject binds

/-- The engine at a place that one step leads to. -/
def step (engine : Engine) (n : Nat) : Engine := { engine with place := n :: engine.place }

/-- The lambda of a pattern variable and a body.  The variable becomes a bound variable whose
index is one above the index of the body, in its own guard and in the body.  In each of the two
it is one atom in all its places. -/
def lambda (engine : Engine) (parameter body : Atom) : Evaluation Atom :=
  match parameter with
  | .var name type guard 0 _ => do
    let index := body.bindingIndex + 1
    let bound (condition : Option Atom) : Atom :=
      .var (":" ++ Number.natText index.toNat) type condition index .new
    let newGuard ←
      match guard with
      | some condition => do
        let plain := (bound none).marked (2 :: engine.place)
        let renamed ← (engine.step 0).evaluate (NameMap.empty.insert name plain) condition
        pure (some renamed)
      | none => pure none
    let newParameter := (bound newGuard).marked (3 :: engine.place)
    let newBody ← (engine.step 1).evaluate (NameMap.empty.insert name newParameter) body
    pure (.lambda newParameter newBody .new)
  | _ => .error (.notVariable parameter)

end Engine

end Equational
