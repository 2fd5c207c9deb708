import Equational.Cbor.Item

/-!
# Writing items

Every item is written with definite lengths and the shortest heads, and a float
in the smallest format that holds it exactly.
-/

namespace Equational
namespace Cbor

/-- The `count` bytes of a number, most significant first. -/
def bigEndian : Nat → Nat → List UInt8
  | 0, _ => []
  | count + 1, n => (n / Number.twoTo (8 * count) % 256).toUInt8 :: bigEndian count n

/-- The head of an item: its major type and a number, in as few bytes as possible. -/
def head (major n : Nat) : List UInt8 :=
  let first (info : Nat) : UInt8 := (major * 32 + info).toUInt8
  if n < 24 then [first n]
  else if n < 256 then first 24 :: bigEndian 1 n
  else if n < 65536 then first 25 :: bigEndian 2 n
  else if n < 4294967296 then first 26 :: bigEndian 4 n
  else first 27 :: bigEndian 8 n

/-- A float in the smallest format that holds it; there is one form for all NaNs. -/
def writeFloat (x : Number.Binary64) : List UInt8 :=
  match x.value with
  | .nan _ _ => [0xf9, 0x7e, 0x00]
  | .infinity negative => [0xf9, if negative then 0xfc else 0x7c, 0x00]
  | .finite .. =>
    match x.narrow? .half, x.narrow? .single with
    | some bits, _ => 0xf9 :: bigEndian 2 bits
    | none, some bits => 0xfa :: bigEndian 4 bits
    | none, none => 0xfb :: bigEndian 8 x.bits.toNat

namespace Item

mutual

def write : Item → List UInt8
  | unsigned value => head 0 value
  | negative value => head 1 value
  | bytes value => head 2 value.length ++ value
  | text value => head 3 (utf8 value).length ++ utf8 value
  | array items _ => head 4 items.length ++ writeList items
  | map _ items _ => head 5 (items.length / 2) ++ writeList items
  | tagged item => item.write
  | boolean value => [if value then 0xf5 else 0xf4]
  | null => [0xf6]
  | undefined => [0xf7]
  | float value => writeFloat value
  | broken _ => []

def writeList : List Item → List UInt8
  | [] => []
  | item :: rest => item.write ++ writeList rest

end

end Item

end Cbor
end Equational
