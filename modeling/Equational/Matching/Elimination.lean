import Equational.Matching.Positional
import Equational.Sequence.Pool

/-!
# Elimination of constants

Where the order of the subjects does not matter, each constant pattern is
paired with an equal subject, and both are taken away.  A constant pattern
without an equal subject ends the match, unless it has parts, through which it
may still match.
-/

namespace Equational

namespace Elimination

/-- What elimination has taken away: positions of patterns and of subjects. -/
structure Taken where
  patterns : List Nat
  subjects : List Nat

/-- Pairs the positions of one constant with candidates among the subjects, each candidate
used once.  Gives the positions of a pattern that is missing, if one is. -/
def pair (patterns subjects : List Atom) : List Nat → List Nat → Taken → Except Nat Taken
  | [], _, taken => .ok taken
  | p :: ps, candidates, taken =>
    match patterns[p]? with
    | none => pair patterns subjects ps candidates taken
    | some pattern =>
      match candidates.dropWhile fun s => !(subjects[s]?.any (· == pattern)) with
      | s :: rest =>
        pair patterns subjects ps rest ⟨p :: taken.patterns, s :: taken.subjects⟩
      | [] =>
        if pattern.isStructured then pair patterns subjects ps [] taken else .error p

def pairAll (patterns subjects : List Atom) (pool : Sequence.Pool) :
    Sequence.Pool → Taken → Except Nat Taken
  | [], taken => .ok taken
  | (digest, positions) :: rest, taken =>
    match pair patterns subjects positions ((pool.lookup digest).getD []) taken with
    | .error p => .error p
    | .ok taken => pairAll patterns subjects pool rest taken

def remaining {α : Type} (taken : List Nat) (list : List α) : List α :=
  (list.zipIdx.filter fun entry => !taken.contains entry.2).map (·.1)

end Elimination

namespace Sequence

/-- Takes equal constants away from both sides.  Gives what is left, in its old order. -/
def eliminateConstants (patterns : List Element) (subjects : Sequence Atom) :
    Traced (Except Failure (List Element × List Atom)) :=
  let atoms := patterns.map (·.pattern)
  match Elimination.pairAll atoms subjects.elements (constantPool subjects.elements)
      (constantPool atoms) ⟨[], []⟩ with
  | .ok taken =>
    .of (.ok (Elimination.remaining taken.patterns patterns,
      Elimination.remaining taken.subjects subjects.elements))
  | .error p =>
    match atoms[p]? with
    | some pattern =>
      ⟨[.notice (.constantMissing pattern subjects)],
        .error (.between .notFound pattern (.sequence subjects .new))⟩
    | none => .of (.error (.of .notFound))

end Sequence

end Equational
