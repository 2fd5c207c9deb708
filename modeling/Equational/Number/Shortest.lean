import Equational.Number.Binary

/-!
# Shortest decimal digits

The shortest decimal of a binary number is the one with the fewest significant
digits among all decimals that round to that number; among those of the same
length it is the nearest, and of two equally near the larger.  All comparisons
are exact, in natural numbers.
-/

namespace Equational
namespace Number

/-- The decimal `digits * 10 ^ exponent`. -/
structure Decimal where
  digits : Nat
  exponent : Int
deriving DecidableEq, Inhabited

/-- A positive binary number `significand * 2 ^ exponent` with the reach of its rounding
interval: half a unit upwards, and downwards half a unit or, at a power of two whose
lower neighbour is closer, a quarter. -/
structure Rounded where
  significand : Nat
  exponent : Int
  closeBelow : Bool

namespace Rounded

/-- Compares `a * 10 ^ k` with `b * 2 ^ q`. -/
def compareDecimal (a : Nat) (k : Int) (b : Nat) (q : Int) : Ordering :=
  compare (a * tenTo k.toNat * twoTo (-q).toNat) (b * twoTo q.toNat * tenTo (-k).toNat)

/-- Whether a decimal rounds to the number.  The ends of the interval count exactly when
the significand is even. -/
def accepts (x : Rounded) (d : Decimal) : Bool :=
  let low := 4 * x.significand - if x.closeBelow then 1 else 2
  let high := 4 * x.significand + 2
  let even := x.significand % 2 == 0
  let fromLow := compareDecimal d.digits d.exponent low (x.exponent - 2)
  let toHigh := compareDecimal d.digits d.exponent high (x.exponent - 2)
  (fromLow == .gt || (fromLow == .eq && even)) && (toHigh == .lt || (toHigh == .eq && even))

/-- The largest multiple of `10 ^ k`, counted in such units, that is at most the number. -/
def floorUnits (x : Rounded) (k : Int) : Nat :=
  (x.significand * twoTo x.exponent.toNat * tenTo (-k).toNat)
    / (twoTo (-x.exponent).toNat * tenTo k.toNat)

/-- Whether the number lies nearer to the lower of two neighbours on the grid of `10 ^ k`. -/
def nearerBelow (x : Rounded) (floor : Nat) (k : Int) : Bool :=
  compareDecimal (2 * floor + 1) k (2 * x.significand) x.exponent == .gt

def leadingExponent (x : Rounded) : Int :=
  let num := x.significand * twoTo x.exponent.toNat
  let den := twoTo (-x.exponent).toNat
  if den ≤ num then (Nat.toDigits 10 (num / den)).length - 1
  else - ((Nat.toDigits 10 ((den + num - 1) / num - 1)).length : Int)

/-- The decimal of a number on the grid of `10 ^ k` that rounds back to it, if one does. -/
def onGrid? (x : Rounded) (k : Int) : Option Decimal :=
  let floor := x.floorUnits k
  let below : Decimal := ⟨floor, k⟩
  let above : Decimal := ⟨floor + 1, k⟩
  match x.accepts below, x.accepts above with
  | true, true => some (if x.nearerBelow floor k then below else above)
  | true, false => some below
  | false, true => some above
  | false, false => none

/-- The first grid with a decimal that rounds back, from one significant digit upwards. -/
def firstGrid? (x : Rounded) (lead : Int) : Nat → Option Decimal
  | 0 => none
  | left + 1 =>
    match x.onGrid? (lead - (16 - left : Int)) with
    | some d => some d
    | none => x.firstGrid? lead left

/-- The shortest decimal of a double; seventeen digits always suffice. -/
def shortest (x : Rounded) : Decimal :=
  let lead := x.leadingExponent
  (x.firstGrid? lead 17).getD ⟨x.floorUnits (lead - 16), lead - 16⟩

end Rounded

/-! ## The text of a double -/

/-- The digit characters of a natural number, with the zeros at its end removed, and the
exponent of its leading digit. -/
def Decimal.scientific (d : Decimal) : List Char × Int :=
  let digits := Nat.toDigits 10 d.digits
  (((digits.reverse.dropWhile (· == '0')).reverse), d.exponent + (digits.length - 1 : Nat))

/-- The limits of positional writing: the exponents of the leading digit from `lowest` to
`highest` are written positionally, with a digit on both sides of the point. -/
structure PositionalRange where
  lowest : Int
  highest : Int

/-- Doubles from `0.0001` up to, not including, `1e16` are written positionally. -/
def doubleRange : PositionalRange := ⟨-4, 15⟩

/-- Digits with a point, or with an exponent and a point only between digits. -/
def writeDigits (range : PositionalRange) (digits : List Char) (lead : Int) : List Char :=
  if range.lowest ≤ lead ∧ lead ≤ range.highest then
    if lead < 0 then
      '0' :: '.' :: List.replicate (-lead - 1).toNat '0' ++ digits
    else
      let whole := lead.toNat + 1
      let padded := digits ++ List.replicate (whole - digits.length) '0'
      let fraction := padded.drop whole
      padded.take whole ++ '.' :: (if fraction.isEmpty then ['0'] else fraction)
  else
    let tail := digits.drop 1
    digits.take 1 ++ (if tail.isEmpty then [] else '.' :: tail) ++ 'e' :: (intText lead).toList

/-- The text of a double: its shortest digits, a sign for negative numbers and for negative
zero, and one text for every NaN. -/
def Binary64.text (x : Binary64) : String :=
  match x.value with
  | .nan _ _ => "NaN"
  | .infinity negative => if negative then "-inf" else "inf"
  | .finite negative significand exponent =>
    let sign := if negative then ['-'] else []
    if significand = 0 then String.ofList (sign ++ ['0', '.', '0'])
    else
      let closeBelow := significand == twoTo 52 && exponent > -1074
      let (digits, lead) := (Rounded.shortest ⟨significand, exponent, closeBelow⟩).scientific
      String.ofList (sign ++ writeDigits doubleRange digits lead)

end Number
end Equational
