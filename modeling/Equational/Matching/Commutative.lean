import Equational.Enumeration.Permutation
import Equational.Matching.Elimination

/-!
# Commutative matching

Where the order of the subjects does not matter, equal constants are taken away
from both sides, and every order of the subjects that are left is tried.
-/

namespace Equational

namespace Stream

def noticed (alternatives : Stream) (notice : Bindings → Notice) : Stream :=
  LazyList.flatMap
    (fun step =>
      match step with
      | .event event => .cons (.event event) fun _ => .nil
      | .found binds =>
        .cons (.event (.notice (notice binds))) fun _ => .cons (.found binds) fun _ => .nil)
    alternatives

end Stream

namespace Element

/-- The subjects in the order that a permutation of their positions gives. -/
def arrange (subjects : List Atom) (order : List Nat) : List Atom :=
  order.filterMap (subjects[·]?)

def matchOrders (elements : List Element) (subjects : List Atom) (binds : Bindings) : Stream :=
  (Permutation.ofSize subjects.length).flatMap fun order =>
    Stream.noticed (matchAll elements (arrange subjects order) binds).stream
      (.permutationMatched order)

end Element

namespace Sequence

def matchCommutative (patterns : List Element) (subjects : Sequence Atom) (binds : Bindings) :
    Traced Outcome :=
  if patterns.length = subjects.length then
    (eliminateConstants patterns subjects).andThen fun left =>
      match left with
      | .error failure => .of (.failed failure)
      | .ok (elements, atoms) =>
        Outcome.firstOf (.of .noPermutation) (Element.matchOrders elements atoms binds)
  else .of (.failed (.of (.unequalLengths patterns.length subjects.length)))

end Sequence

end Equational
