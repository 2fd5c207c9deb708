import Equational.Failure

/-!
# Checked atoms

Operators take pattern variables as their formal parameters, and a lambda binds
a bound variable.  Terms that come from outside are let in through these checks.
-/

namespace Equational

namespace Operator

def checked (op : Operator Atom) : Except TermError (Operator Atom) :=
  match op.parameters.find? fun parameter => !parameter.isFreeVar with
  | some atom => .error (.notVariable atom)
  | none => .ok op

end Operator

namespace Atom

/-- A lambda as it is, provided that its parameter is a bound variable. -/
def checkedLambda (parameter body : Atom) : Except TermError Atom :=
  if parameter.isBoundVar then .ok (lambda parameter body .new)
  else .error (.notVariable parameter)

end Atom

end Equational
