/-!
# Integers

Powers of the two bases in use, and the decimal text of integers.
-/

namespace Equational
namespace Number

def twoTo (n : Nat) : Nat := Nat.pow 2 n

def tenTo (n : Nat) : Nat := Nat.pow 10 n

/-- Decimal digits, without leading zeros. -/
def natText (n : Nat) : String := String.ofList (Nat.toDigits 10 n)

def intText (i : Int) : String :=
  if i < 0 then "-" ++ natText i.natAbs else natText i.natAbs

end Number
end Equational
