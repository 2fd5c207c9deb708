/-!
# Property sets

The algebraic laws that an operation may obey, and sets of them.  A property
set is given over an arbitrary type of values here, because atoms hold property
sets and property sets hold atoms.
-/

namespace Equational

/-- The five algebraic laws that a property set may speak of. -/
inductive Law where
  | associative
  | commutative
  | idempotent
  | absorber
  | identity
deriving DecidableEq

namespace Law

/-- All laws, in the order in which they are listed and checked. -/
def all : List Law := [associative, commutative, idempotent, absorber, identity]

def name : Law → String
  | associative => "associative"
  | commutative => "commutative"
  | idempotent => "idempotent"
  | absorber => "absorber"
  | identity => "identity"

/-- Whether the law holds or not, rather than naming an element. -/
def isBoolean : Law → Bool
  | associative | commutative | idempotent => true
  | absorber | identity => false

end Law

/-- A set of algebraic properties.  A law that is left out is unspecified; a boolean law
may also be symbolic, with a variable in the place of its truth value. -/
structure PropertySet (α : Type) where
  associative : Option α
  commutative : Option α
  idempotent : Option α
  absorber : Option α
  identity : Option α

namespace PropertySet

variable {α : Type}

def none : PropertySet α := ⟨.none, .none, .none, .none, .none⟩

def get (s : PropertySet α) : Law → Option α
  | .associative => s.associative
  | .commutative => s.commutative
  | .idempotent => s.idempotent
  | .absorber => s.absorber
  | .identity => s.identity

def set (s : PropertySet α) (law : Law) (value : Option α) : PropertySet α :=
  match law with
  | .associative => { s with associative := value }
  | .commutative => { s with commutative := value }
  | .idempotent => { s with idempotent := value }
  | .absorber => { s with absorber := value }
  | .identity => { s with identity := value }

/-- The specified laws with their values, in listing order. -/
def specified (s : PropertySet α) : List (Law × α) :=
  Law.all.filterMap fun law => (s.get law).map (law, ·)

def isEmpty (s : PropertySet α) : Bool := s.specified.isEmpty

/-! ## Laws of a property set -/

@[simp] theorem get_set_self (s : PropertySet α) (law : Law) (value : Option α) :
    (s.set law value).get law = value := by
  cases law <;> rfl

theorem get_set_of_ne (s : PropertySet α) {law other : Law} (value : Option α)
    (hne : other ≠ law) : (s.set law value).get other = s.get other := by
  cases law <;> cases other <;> first | rfl | exact absurd rfl hne

@[simp] theorem get_none (law : Law) : (none : PropertySet α).get law = .none := by
  cases law <;> rfl

theorem eq_of_get_eq {s t : PropertySet α} (h : ∀ law, s.get law = t.get law) : s = t := by
  cases s
  cases t
  have ha := h .associative
  have hc := h .commutative
  have hi := h .idempotent
  have hb := h .absorber
  have hd := h .identity
  simp only [get] at ha hc hi hb hd
  rw [ha, hc, hi, hb, hd]

end PropertySet

end Equational
