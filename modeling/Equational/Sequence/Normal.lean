import Equational.PropertySet.Legal

/-!
# Normal sequences

A sequence is normalized under its own properties.  Idempotence removes later
duplicates; associativity splices in nested sequences of equal properties,
drops identities, and lets an absorber replace the whole list.  Passes are
repeated until one changes nothing.  Only a law that holds for certain takes
part.
-/

namespace Equational

namespace Atom

/-! ## The number of elements -/

mutual

/-- The number of atoms that splicing could bring to light, the atom itself among them. -/
def span : Atom → Nat
  | sequence ⟨_, elements⟩ _ => listSpan elements + 1
  | _ => 1

def listSpan : List Atom → Nat
  | [] => 0
  | atom :: rest => atom.span + listSpan rest

end

/-! ## Distinct atoms -/

/-- What equality of atoms compares. -/
def key (atom : Atom) : Nat × Digest := (atom.depth, atom.fingerprint)

theorem beq_eq_key_beq (a b : Atom) : (a == b) = (a.key == b.key) := rfl

/-- The atoms of a list that equal neither an atom seen before nor one further to the left. -/
def distinctFrom (seen : List (Nat × Digest)) : List Atom → List Atom
  | [] => []
  | atom :: rest =>
    let key := atom.key
    if seen.contains key then distinctFrom seen rest else atom :: distinctFrom (key :: seen) rest

def distinct (list : List Atom) : List Atom := distinctFrom [] list

end Atom

namespace Sequence

/-! ## One pass -/

/-- What one associative pass makes of a list. -/
inductive Spliced where
  /-- The absorber was met and stands for the list. -/
  | absorbed (absorber : Atom)
  /-- The elements that are left, and whether they differ from the list. -/
  | elements (list : List Atom) (changed : Bool)

namespace Spliced

def cons (atom : Atom) : Spliced → Spliced
  | absorbed absorber => absorbed absorber
  | elements list changed => elements (atom :: list) changed

def splice (front : List Atom) : Spliced → Spliced
  | absorbed absorber => absorbed absorber
  | elements list _ => elements (front ++ list) true

end Spliced

/-- Drops identities, splices nested sequences of equal properties by one level, and stops at
an absorber. -/
def splice (properties : Properties) : List Atom → Spliced
  | [] => .elements [] false
  | atom :: rest =>
    if properties.absorber == some atom then .absorbed atom
    else if properties.identity == some atom then (splice properties rest).splice []
    else
      match atom with
      | .sequence inner _ =>
        if inner.properties == properties then (splice properties rest).splice inner.elements
        else (splice properties rest).cons atom
      | _ => (splice properties rest).cons atom

/-- Repeats the passes until one changes nothing, at most the given number of times. -/
def normalizeWithin (properties : Properties) : Nat → List Atom → List Atom
  | 0, list => list
  | passes + 1, list =>
    let distinct := if properties.isIdempotent then Atom.distinct list else list
    let shorter := distinct.length != list.length
    if properties.isAssociative then
      match splice properties distinct with
      | .absorbed absorber => [absorber]
      | .elements next changed =>
        if shorter || changed then normalizeWithin properties passes next else next
    else if shorter then normalizeWithin properties passes distinct
    else distinct

/-- The normal form of a list of elements.  Every pass that changes a list makes its span
smaller, so that the span bounds the number of passes. -/
def normalize (properties : Properties) (list : List Atom) : List Atom :=
  normalizeWithin properties (Atom.listSpan list + 1) list

/-! ## Sequences in normal form -/

def ofList (properties : Properties) (list : List Atom) : Sequence Atom :=
  ⟨properties, normalize properties list⟩

def plain (list : List Atom) : Sequence Atom := ofList .none list

@[simp] theorem elements_plain (list : List Atom) : (plain list).elements = list := by
  have ha : (PropertySet.none : Properties).isAssociative = false := rfl
  have hi : (PropertySet.none : Properties).isIdempotent = false := rfl
  show normalize .none list = list
  simp [normalize, normalizeWithin, ha, hi]

def length (s : Sequence Atom) : Nat := s.elements.length

def text (s : Sequence Atom) : String := (Atom.sequence s .new).text

def debugText (s : Sequence Atom) : String := "AtomSeq(" ++ s.text ++ ")"

instance : BEq (Sequence Atom) where
  beq a b := Atom.sequence a .new == Atom.sequence b .new

end Sequence

end Equational
