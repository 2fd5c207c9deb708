import Equational.Atom.Identity

/-!
# Pools of constants

The constants of a list by their fingerprints.  A pool is in ascending order of
fingerprints, and holds with each of them the positions where the list has such
a constant.
-/

namespace Equational

namespace Sequence

/-- The fingerprints of constants, in ascending order, with the positions that hold them. -/
abbrev Pool := List (Digest × List Nat)

def addPosition (digest : Digest) (position : Nat) : Pool → Pool
  | [] => [(digest, [position])]
  | entry :: rest =>
    match compare digest entry.1 with
    | .lt => (digest, [position]) :: entry :: rest
    | .eq => (entry.1, entry.2 ++ [position]) :: rest
    | .gt => entry :: addPosition digest position rest

def constantPool (list : List Atom) : Pool :=
  list.zipIdx.foldl (fun pool element =>
    if element.1.isConstant then addPosition element.1.fingerprint element.2 pool else pool) []

end Sequence

namespace Atom

/-- The constants among the elements of a sequence, also of one that is an argument. -/
def pool? : Atom → Option Sequence.Pool
  | sequence s _ => some (Sequence.constantPool s.elements)
  | application _ argument _ _ => argument.pool?
  | _ => none

end Atom

end Equational
