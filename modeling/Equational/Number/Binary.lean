import Equational.Number.Integer

/-!
# Binary floating point numbers

A format of binary floating point gives a number of bits to the fraction and a
number of bits to the exponent.  Its bit patterns are read into values with an
exact integer significand, and a value is written in a format only if the
format holds it exactly.  No rounding happens here except for integers, which
go to the nearest double, ties to the even significand.
-/

namespace Equational
namespace Number

/-- The widths of the two fields of a binary format; one more bit holds the sign. -/
structure BinaryFormat where
  fractionBits : Nat
  exponentBits : Nat
deriving DecidableEq

namespace BinaryFormat

def half : BinaryFormat := ⟨10, 5⟩

def single : BinaryFormat := ⟨23, 8⟩

def double : BinaryFormat := ⟨52, 11⟩

/-- The largest exponent of a finite number. -/
def bias (f : BinaryFormat) : Nat := twoTo (f.exponentBits - 1) - 1

/-- The pattern of the exponent field that infinities and NaNs carry. -/
def topExponent (f : BinaryFormat) : Nat := twoTo f.exponentBits - 1

def pack (f : BinaryFormat) (negative : Bool) (exponentField fraction : Nat) : Nat :=
  (negative.toNat * twoTo f.exponentBits + exponentField) * twoTo f.fractionBits + fraction

end BinaryFormat

/-- What a bit pattern of some format stands for. -/
inductive BinaryValue where
  | nan (negative : Bool) (payload : Nat)
  | infinity (negative : Bool)
  /-- The number of the given sign and of magnitude `significand * 2 ^ exponent`. -/
  | finite (negative : Bool) (significand : Nat) (exponent : Int)
deriving DecidableEq

namespace BinaryValue

def ofBits (f : BinaryFormat) (bits : Nat) : BinaryValue :=
  let negative := bits / twoTo (f.fractionBits + f.exponentBits) % 2 == 1
  let exponentField := bits / twoTo f.fractionBits % twoTo f.exponentBits
  let fraction := bits % twoTo f.fractionBits
  let lowest : Int := 1 - f.bias - f.fractionBits
  if exponentField = f.topExponent then
    if fraction = 0 then infinity negative else nan negative fraction
  else if exponentField = 0 then finite negative fraction lowest
  else finite negative (twoTo f.fractionBits + fraction) (lowest + (exponentField - 1 : Nat))

/-- The bit pattern of a finite number in a format that holds it exactly. -/
def exactFinite? (f : BinaryFormat) (negative : Bool) (significand : Nat) (exponent : Int) :
    Option Nat :=
  if significand = 0 then some (f.pack negative 0 0)
  else
    let top := significand.log2
    let lowest : Int := 1 - f.bias - f.fractionBits
    -- the weight of the last bit that the format keeps of this number
    let weight : Int := max lowest (exponent + top - f.fractionBits)
    let kept? : Option Nat :=
      if weight ≤ exponent then some (significand * twoTo (exponent - weight).toNat)
      else
        let unit := twoTo (weight - exponent).toNat
        if significand % unit = 0 then some (significand / unit) else none
    match kept? with
    | none => none
    | some kept =>
      if exponent + top > f.bias then none
      else if kept < twoTo f.fractionBits then some (f.pack negative 0 kept)
      else some (f.pack negative ((weight - lowest).toNat + 1) (kept - twoTo f.fractionBits))

end BinaryValue

/-- A double, known by its bits; two NaNs of different bits are different. -/
structure Binary64 where
  bits : UInt64
deriving DecidableEq, Inhabited

namespace Binary64

def value (x : Binary64) : BinaryValue := .ofBits .double x.bits.toNat

/-- Widens a bit pattern of a smaller format.  A NaN keeps its payload and becomes quiet. -/
def widen (f : BinaryFormat) (bits : Nat) : Binary64 :=
  match BinaryValue.ofBits f bits with
  | .infinity negative =>
    ⟨(BinaryFormat.double.pack negative BinaryFormat.double.topExponent 0).toUInt64⟩
  | .nan negative payload =>
    let fraction := payload * twoTo (52 - f.fractionBits) ||| twoTo 51
    ⟨(BinaryFormat.double.pack negative BinaryFormat.double.topExponent fraction).toUInt64⟩
  | .finite negative significand exponent =>
    ⟨((BinaryValue.exactFinite? .double negative significand exponent).getD 0).toUInt64⟩

/-- The bit pattern of a finite double in a smaller format, if that holds it exactly. -/
def narrow? (f : BinaryFormat) (x : Binary64) : Option Nat :=
  match x.value with
  | .finite negative significand exponent =>
    BinaryValue.exactFinite? f negative significand exponent
  | _ => none

/-- The double nearest to an integer; of two nearest, the one with the even significand. -/
def ofInt (i : Int) : Binary64 :=
  let magnitude := i.natAbs
  let excess := magnitude.log2 - 52
  let unit := twoTo excess
  let quotient := magnitude / unit
  let rest := magnitude % unit
  let rounded :=
    if 2 * rest > unit ∨ (2 * rest = unit ∧ quotient % 2 = 1) then quotient + 1 else quotient
  ⟨((BinaryValue.exactFinite? .double (i < 0) rounded excess).getD 0).toUInt64⟩

end Binary64

end Number
end Equational
