import Equational.Evaluation

/-!
# Argument lists

What an operator makes of its argument before its formal parameters are looked
at.  The properties that an argument list asks for have to be declared, and an
associative operator normalizes the list.
-/

namespace Equational

namespace Operator

/-! ## The argument list -/

/-- The declared value of a law.  A boolean law that is left out is declared `false`. -/
def declared? (op : Operator Atom) (law : Law) : Option Atom :=
  op.properties.effective? law

/-- The first law that a list asks for and that the operator does not declare so. -/
def mismatch? (op : Operator Atom) (requested : Properties) : Option TermError :=
  requested.specified.findSome? fun entry =>
    let declared := op.declared? entry.1
    if declared == some entry.2 then none
    else some (.mismatch op.name entry.1 entry.2 declared)

/-- The arguments that an atom stands for: the elements of a sequence, else itself. -/
def arguments (op : Operator Atom) : Atom → Evaluation (List Atom)
  | .sequence s _ =>
    match op.mismatch? s.properties with
    | some error => .error error
    | none => .value s.elements
  | atom => .value [atom]

/-- Replaces applications of the same operator by their arguments, one level deep. -/
def flatten (op : Operator Atom) (list : List Atom) : List Atom :=
  list.flatMap fun atom =>
    match atom with
    | .application (.operator inner _) argument _ _ =>
      if inner == op then argument.elements?.getD [argument] else [atom]
    | _ => [atom]

/-- The arguments of an associative operator: flattened, without identities, and without
duplicates if it is idempotent. -/
def simplify (op : Operator Atom) (list : List Atom) : List Atom :=
  let flat := op.flatten list
  let proper :=
    match op.properties.identity with
    | some identity => flat.filter (· != identity)
    | none => flat
  if op.properties.isIdempotent then Atom.distinct proper else proper

end Operator

end Equational
