import Equational.Matching.Term
import Equational.Operator.Arguments

/-!
# Application of operators

The last formal parameter is repeated until there are as many parameters as
arguments, the parameters are bound to the arguments, and then a native
evaluation may replace the structural application.
-/

namespace Equational

/-! ## Native evaluation -/

/-- What a native evaluation sees: the operator, its normalized arguments and its bound
parameters. -/
structure Call where
  operator : Operator Atom
  arguments : Sequence Atom
  bound : Bindings

/-- The structural application that stands where nothing is evaluated. -/
def Call.asIs (call : Call) : Atom :=
  .application (.operator call.operator .new) (.sequence call.arguments .new) call.bound .new

/-- What the keys of native evaluations mean.  An evaluation may decline. -/
abbrev Natives := String → Call → Option Atom

namespace Operator

/-! ## The formal parameters -/

/-- Copies of a formal parameter under numbered names, counted from `copy`.  A guard speaks
of the copy that it belongs to. -/
def copies (evaluate : GuardEvaluator) (name : String) (type : Atom) (guard : Option Atom)
    (copy : Nat) : Nat → Evaluation (List Atom)
  | 0 => .value []
  | count + 1 => do
    let copyName := name ++ "#" ++ Number.natText copy
    let copyGuard ←
      match guard with
      | some condition => do
        let renamed ← evaluate (NameMap.empty.insert name (.free copyName type)) condition
        pure (some renamed)
      | none => pure none
    let rest ← copies evaluate name type guard (copy + 1) count
    pure (.var copyName type copyGuard 0 .new :: rest)

/-- The formal parameters, the last of them repeated until there are as many as arguments. -/
def paddedParameters (evaluate : GuardEvaluator) (op : Operator Atom) (arity : Nat) :
    Evaluation (List Atom) :=
  match op.parameters.getLast? with
  | none => .value []
  | some (.var name type guard _ _) => do
    let more ← copies evaluate name type guard 1 (arity - op.parameters.length)
    pure (op.parameters ++ more)
  | some atom => .error (.notVariable atom)

/-! ## Binding and dispatch -/

def bindParameters (evaluate : GuardEvaluator) (op : Operator Atom)
    (parameters arguments : List Atom) : Evaluation Bindings :=
  let outcome := (Element.matchAll (Atom.listElements evaluate parameters) arguments .empty).andThen
    Outcome.first
  ⟨Event.notices outcome.events, outcome.value.mapError (.parameters op.name)⟩

/-- Runs the native evaluation of a call, if there is one and it does not decline. -/
def evaluateCall (natives : Natives) (call : Call) : Evaluation Atom :=
  match call.operator.native.bind (natives · call) with
  | some result => do
    Evaluation.note (.nativeResult call.operator.name result)
    pure result
  | none => .value call.asIs

def dispatch (natives : Natives) (evaluate : GuardEvaluator) (op : Operator Atom)
    (parameters arguments : List Atom) : Evaluation Atom := do
  let bound ← op.bindParameters evaluate parameters arguments
  evaluateCall natives ⟨op, .ofList op.properties arguments, bound⟩

/-- Applies an associative operator.  The absorber stands for every list that holds it, the
identity for the empty list, and a single argument for itself. -/
def applyAssociative (natives : Natives) (evaluate : GuardEvaluator) (op : Operator Atom)
    (list : List Atom) : Evaluation Atom :=
  let arguments := op.simplify list
  match op.properties.absorber.filter fun absorber => arguments.any (· == absorber) with
  | some absorber => do
    Evaluation.note (.absorberPresent op.name absorber)
    pure absorber
  | none =>
    match arguments, op.properties.identity with
    | [], some identity => do
      Evaluation.note (.emptyArguments op.name)
      pure identity
    | [argument], _ => do
      Evaluation.note (.singleArgument op.name)
      pure argument
    | _, _ => do
      let parameters ← op.paddedParameters evaluate arguments.length
      op.dispatch natives evaluate parameters arguments

def applyWith (natives : Natives) (evaluate : GuardEvaluator) (op : Operator Atom)
    (argument : Atom) : Evaluation Atom := do
  let list ← op.arguments argument
  if op.properties.isAssociative then op.applyAssociative natives evaluate list
  else op.dispatch natives evaluate op.parameters list

end Operator

end Equational
