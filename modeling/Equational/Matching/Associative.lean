import Equational.Enumeration.Grouping
import Equational.Matching.Commutative

/-!
# Associative matching

Where the bracketing of the subjects does not matter, one pattern may take a
run of several subjects, wrapped up as one atom.  Every grouping of the
subjects into as many runs as there are patterns is tried; if the order does
not matter either, every order of the subjects is cut in every way.
-/

namespace Equational

/-- How a run of several subjects becomes one atom. -/
inductive Wrapper where
  /-- A sequence of the given properties. -/
  | sequence (properties : Properties)
  /-- An application of a head to such a sequence; nothing is evaluated. -/
  | application (head : Atom) (properties : Properties)

namespace Wrapper

/-- Wraps up a run; a single element stays as it is. -/
def wrap (wrapper : Wrapper) (run : List Atom) : Atom :=
  match run with
  | [atom] => atom
  | _ =>
    match wrapper with
    | sequence properties => .sequence (.ofList properties run) .new
    | application head properties =>
      .application head (.sequence (.ofList properties run) .new) .empty .new

end Wrapper

namespace Element

def matchGroupings (wrapper : Wrapper) (elements : List Element) (subjects : List Atom)
    (binds : Bindings) : Stream :=
  (Grouping.groupings elements.length subjects).flatMap fun runs =>
    Stream.noticed (matchAll elements (runs.map wrapper.wrap) binds).stream .groupingMatched

end Element

namespace Sequence

def matchAssociative (wrapper : Wrapper) (patterns : List Element) (subjects : Sequence Atom)
    (binds : Bindings) : Traced Outcome :=
  let k := patterns.length
  let n := subjects.length
  if k = n then Element.matchAll patterns subjects.elements binds
  else if k = 0 ∨ n < k then .of (.failed (.of (.tooFewRuns n k)))
  else
    Outcome.firstOf (.of .noGrouping)
      (Element.matchGroupings wrapper patterns subjects.elements binds)

/-- Matches what is left after elimination against an associative and commutative list. -/
def matchArrangements (wrapper : Wrapper) (elements : List Element) (subjects : List Atom)
    (binds : Bindings) : Traced Outcome :=
  let k := elements.length
  let n := subjects.length
  if k = 0 then
    if n = 0 then .of (.found binds) else .of (.failed (.of (.subjectsLeft n)))
  else if n < k then .of (.failed (.of (.patternsLeft k n)))
  else if k = n then
    Outcome.firstOf (.of .noPermutation) (Element.matchOrders elements subjects binds)
  else
    Outcome.firstOf (.of .noArrangement)
      ((Permutation.ofSize n).flatMap fun order =>
        Element.matchGroupings wrapper elements (Element.arrange subjects order) binds)

def matchAssociativeCommutative (wrapper : Wrapper) (patterns : List Element)
    (subjects : Sequence Atom) (binds : Bindings) : Traced Outcome :=
  (eliminateConstants patterns subjects).andThen fun left =>
    match left with
    | .error failure => .of (.failed failure)
    | .ok (elements, atoms) => matchArrangements wrapper elements atoms binds

/-- Matches the elements of sequences in the way that the subject's laws and the two lengths
call for. -/
def matchElements (wrapper : Wrapper) (patterns : List Element) (subjects : Sequence Atom)
    (binds : Bindings) : Traced Outcome :=
  let k := patterns.length
  let n := subjects.length
  let associative := subjects.properties.isAssociative
  let commutative := subjects.properties.isCommutative
  if k = n then
    if commutative then matchCommutative patterns subjects binds
    else Element.matchAll patterns subjects.elements binds
  else if k < n && associative then
    if commutative then matchAssociativeCommutative wrapper patterns subjects binds
    else matchAssociative wrapper patterns subjects binds
  else .of (.failed (.of (.lengthsDiffer k n)))

/-- Matches a sequence of elements against a sequence: first the properties, then the
elements, where runs are wrapped up by the given wrapper. -/
def matchUnder (wrapper : Wrapper) (pattern : Sequence Element) (subject : Sequence Atom)
    (binds : Bindings) : Traced Outcome :=
  ((pattern.properties.matchLaws subject.properties binds).mapFailure fun failure =>
      (Failure.of .propertiesDiffer).causedBy failure)
    |>.continued fun binds => matchElements wrapper pattern.elements subject binds

end Sequence

end Equational
