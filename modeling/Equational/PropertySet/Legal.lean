import Equational.Atom.Text

/-!
# Legal property sets

A boolean law is given by a truth value or by an atom that is not constant yet.
Idempotence that is not denied, an absorber and an identity make sense only for
an operation that is associative, or may still turn out to be.  Every property
set is built through the check of these rules.
-/

namespace Equational

/-- Why a property set is illegal. -/
inductive PropertyError where
  | notBoolean (law : Law) (value : Atom)
  | requiresAssociative (law : Law)
  | symbolicNegation (law : Law) (value : Atom)

namespace PropertyError

def law : PropertyError → Law
  | notBoolean law _ | requiresAssociative law | symbolicNegation law _ => law

def message : PropertyError → String
  | notBoolean law value => law.name ++ " must be a boolean, got `" ++ value.text ++ "`"
  | requiresAssociative law => law.name ++ " requires the associative property"
  | symbolicNegation law value => "cannot negate symbolic " ++ law.name ++ " `" ++ value.text ++ "`"

end PropertyError

namespace PropertySet

/-! ## Flags -/

/-- A law holds for certain only when it is the literal `true`. -/
def holds (value : Option Atom) : Bool := value.bind Atom.bool? == some true

/-- A law may hold when it is specified by anything but the literal `false`. -/
def mayHold (value : Option Atom) : Bool :=
  match value with
  | .none => false
  | some atom => atom.bool? != some false

def isAssociative (s : Properties) : Bool := holds s.associative

def isCommutative (s : Properties) : Bool := holds s.commutative

def isIdempotent (s : Properties) : Bool := holds s.idempotent

def isConstant (s : Properties) : Bool := Atom.propertiesConstant s

def bindingIndex (s : Properties) : UInt64 := Atom.propertiesIndex s

/-- The value of a law, where a boolean law that is left out counts as `false`. -/
def effective? (s : Properties) (law : Law) : Option Atom :=
  match s.get law with
  | some value => some value
  | .none => if law.isBoolean then some (.boolean false) else .none

/-! ## The check -/

/-- The first boolean law that is given by a constant without a truth value. -/
def notBoolean? (s : Properties) : Option PropertyError :=
  [Law.associative, .commutative, .idempotent].findSome? fun law =>
    match s.get law with
    | some value =>
      if value.isConstant && value.bool?.isNone then some (.notBoolean law value) else .none
    | .none => .none

/-- The first law that needs associativity where there is none. -/
def lacksAssociative? (s : Properties) : Option PropertyError :=
  if mayHold s.associative then .none
  else if mayHold s.idempotent then some (.requiresAssociative .idempotent)
  else if s.absorber.isSome then some (.requiresAssociative .absorber)
  else if s.identity.isSome then some (.requiresAssociative .identity)
  else .none

def checked (s : Properties) : Except PropertyError Properties :=
  match s.notBoolean?.or s.lacksAssociative? with
  | some error => .error error
  | .none => .ok s

/-! ## Combinations -/

/-- Overrides the laws of one property set by those that another specifies. -/
def and (s other : Properties) : Except PropertyError Properties :=
  checked (other.specified.foldl (fun merged entry => merged.set entry.1 (some entry.2)) s)

def negateLaw (law : Law) : Option Atom → Except PropertyError (Option Atom)
  | .none => .ok .none
  | some value =>
    match value.bool? with
    | some truth => .ok (some (.boolean !truth))
    | .none => .error (.symbolicNegation law value)

/-- Turns every specified boolean law into its opposite and drops absorber and identity. -/
def negate (s : Properties) : Except PropertyError Properties := do
  let associative ← negateLaw .associative s.associative
  let commutative ← negateLaw .commutative s.commutative
  let idempotent ← negateLaw .idempotent s.idempotent
  checked ⟨associative, commutative, idempotent, .none, .none⟩

end PropertySet

end Equational
