/-!
# Digests

A digest is a value of 256 bits.  It is held as eight 32-bit words, so that its
length is fixed by its type; the byte view is big-endian.  Digests are compared
byte by byte, which for big-endian words is the comparison word by word.
-/

namespace Equational

def hexText (bytes : List UInt8) : String :=
  String.ofList
    (bytes.flatMap fun b => [Nat.digitChar (b.toNat / 16), Nat.digitChar (b.toNat % 16)])

/-- A 256-bit value, most significant word first. -/
structure Digest where
  w0 : UInt32
  w1 : UInt32
  w2 : UInt32
  w3 : UInt32
  w4 : UInt32
  w5 : UInt32
  w6 : UInt32
  w7 : UInt32
deriving DecidableEq, Inhabited

namespace Digest

def words (d : Digest) : List UInt32 :=
  [d.w0, d.w1, d.w2, d.w3, d.w4, d.w5, d.w6, d.w7]

def wordBytes (w : UInt32) : List UInt8 :=
  [(w >>> 24).toUInt8, (w >>> 16).toUInt8, (w >>> 8).toUInt8, w.toUInt8]

def wordOfBytes (a b c d : UInt8) : UInt32 :=
  (a.toUInt32 <<< 24) ||| (b.toUInt32 <<< 16) ||| (c.toUInt32 <<< 8) ||| d.toUInt32

def bytes (d : Digest) : List UInt8 :=
  d.words.flatMap wordBytes

def ofBytes? : List UInt8 → Option Digest
  | [a0, a1, a2, a3, b0, b1, b2, b3, c0, c1, c2, c3, d0, d1, d2, d3,
     e0, e1, e2, e3, f0, f1, f2, f3, g0, g1, g2, g3, h0, h1, h2, h3] =>
    some ⟨wordOfBytes a0 a1 a2 a3, wordOfBytes b0 b1 b2 b3, wordOfBytes c0 c1 c2 c3,
      wordOfBytes d0 d1 d2 d3, wordOfBytes e0 e1 e2 e3, wordOfBytes f0 f1 f2 f3,
      wordOfBytes g0 g1 g2 g3, wordOfBytes h0 h1 h2 h3⟩
  | _ => none

def zero : Digest := ⟨0, 0, 0, 0, 0, 0, 0, 0⟩

/-- Bytewise order. -/
instance : Ord Digest where
  compare a b := compareLex (compareOn words) (fun _ _ => .eq) a b

def hex (d : Digest) : String := hexText d.bytes

/-- The shown form of a digest names its first four bytes. -/
def text (d : Digest) : String :=
  "HashValue(" ++ hexText (wordBytes d.w0) ++ "…)"

@[simp] theorem length_bytes (d : Digest) : d.bytes.length = 32 := rfl

end Digest

end Equational
