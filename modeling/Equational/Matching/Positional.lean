import Equational.Matching.Outcome

/-!
# Positional matching

A matcher takes a subject and binding set to an outcome.  An element is a
pattern together with its matcher; the matchers for lists of patterns are given
over elements, and do not look into patterns themselves.  Positional matching
takes the first element under the bindings at hand, and the others under every
binding set that this yields.
-/

namespace Equational

abbrev Matcher := Atom → Bindings → Traced Outcome

/-- A pattern with its matcher. -/
structure Element where
  pattern : Atom
  matcher : Matcher

namespace Matcher

/-- Makes the attempt and its verdict visible. -/
def watched (pattern : Atom) (search : Matcher) : Matcher := fun subject binds =>
  let outcome := search subject binds
  ⟨.attempt pattern subject binds
      :: outcome.events ++ [.verdict pattern subject outcome.value.verdict],
    outcome.value⟩

end Matcher

namespace Element

/-- Matches elements against subjects one by one, counting positions from `index`. -/
def matchFrom (index : Nat) : List Element → List Atom → Bindings → Traced Outcome
  | element :: elements, subject :: subjects, binds =>
    ((element.matcher subject binds).mapFailure fun failure =>
        ((Failure.between .elementsDiffer element.pattern subject).atIndex index).causedBy failure)
      |>.continued fun binds => matchFrom (index + 1) elements subjects binds
  | _, _, binds => .of (.found binds)

def matchAll (elements : List Element) (subjects : List Atom) (binds : Bindings) :
    Traced Outcome :=
  if elements.length = subjects.length then matchFrom 0 elements subjects binds
  else .of (.failed (.of (.lengthsDiffer elements.length subjects.length)))

end Element

namespace PropertySet

/-- The subjects for the specified laws of a pattern, or the first law that is missing. -/
def effectives (subject : Properties) :
    List (Law × Element) → Except Failure (List Atom)
  | [] => .ok []
  | (law, element) :: rest =>
    match effective? subject law with
    | .none => .error (.of (.lawMissing law element.pattern))
    | some value => (effectives subject rest).map (value :: ·)

/-- Matches a property set; a law that the pattern leaves out matches anything. -/
def matchLaws (pattern : PropertySet Element) (subject : Properties) (binds : Bindings) :
    Traced Outcome :=
  match effectives subject pattern.specified with
  | .error failure => .of (.failed failure)
  | .ok subjects => Element.matchAll (pattern.specified.map (·.2)) subjects binds

end PropertySet

end Equational
