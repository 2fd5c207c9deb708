import Equational.Digest.Basic

/-!
# SHA-256

The secure hash of 256 bits over a list of bytes: the message is padded to a
multiple of 64 bytes, and each block of sixteen words is compressed into the
running digest by sixty-four rounds.

Words are natural numbers below `2 ^ 32` on the way, and 32-bit words only in the
digest: the digests of closed terms are then evaluated by the arithmetic of
numbers, which proofs by evaluation depend on.
-/

namespace Equational
namespace Sha256

open Nat (land lor xor shiftLeft shiftRight)

def word (n : Nat) : Nat := land n 0xffffffff

/-!
## Mixing functions
-/

/-- The last 32 bits are those of the rotated word. -/
@[inline] def rotate (w n : Nat) : Nat := lor (shiftRight w n) (shiftLeft w (32 - n))

def choose (e f g : Nat) : Nat := xor (land e f) (land (xor e 0xffffffff) g)

def majority (a b c : Nat) : Nat := xor (xor (land a b) (land a c)) (land b c)

def bigSigma0 (a : Nat) : Nat := word (xor (xor (rotate a 2) (rotate a 13)) (rotate a 22))

def bigSigma1 (e : Nat) : Nat := word (xor (xor (rotate e 6) (rotate e 11)) (rotate e 25))

def smallSigma0 (w : Nat) : Nat := word (xor (xor (rotate w 7) (rotate w 18)) (shiftRight w 3))

def smallSigma1 (w : Nat) : Nat := word (xor (xor (rotate w 17) (rotate w 19)) (shiftRight w 10))

/-!
## Schedule
-/

/-- Sixteen words in a row. -/
structure Window where
  (w0 w1 w2 w3 w4 w5 w6 w7 w8 w9 w10 w11 w12 w13 w14 w15 : Nat)

/-- One word further; the new word is mixed from the sixteen before it. -/
def Window.next : Window → Window
  | ⟨w0, w1, w2, w3, w4, w5, w6, w7, w8, w9, w10, w11, w12, w13, w14, w15⟩ =>
    ⟨w1, w2, w3, w4, w5, w6, w7, w8, w9, w10, w11, w12, w13, w14, w15,
      word (smallSigma1 w14 + w9 + smallSigma0 w1 + w0)⟩

def schedule : Nat → Window → List Nat
  | 0, _ => []
  | n + 1, window => window.w0 :: schedule n window.next

/-!
## Rounds
-/

/-- The fractional parts of the cube roots of the first sixty-four primes. -/
def roundConstants : List Nat :=
  [0x428a2f98, 0x71374491, 0xb5c0fbcf, 0xe9b5dba5, 0x3956c25b, 0x59f111f1, 0x923f82a4, 0xab1c5ed5,
   0xd807aa98, 0x12835b01, 0x243185be, 0x550c7dc3, 0x72be5d74, 0x80deb1fe, 0x9bdc06a7, 0xc19bf174,
   0xe49b69c1, 0xefbe4786, 0x0fc19dc6, 0x240ca1cc, 0x2de92c6f, 0x4a7484aa, 0x5cb0a9dc, 0x76f988da,
   0x983e5152, 0xa831c66d, 0xb00327c8, 0xbf597fc7, 0xc6e00bf3, 0xd5a79147, 0x06ca6351, 0x14292967,
   0x27b70a85, 0x2e1b2138, 0x4d2c6dfc, 0x53380d13, 0x650a7354, 0x766a0abb, 0x81c2c92e, 0x92722c85,
   0xa2bfe8a1, 0xa81a664b, 0xc24b8b70, 0xc76c51a3, 0xd192e819, 0xd6990624, 0xf40e3585, 0x106aa070,
   0x19a4c116, 0x1e376c08, 0x2748774c, 0x34b0bcb5, 0x391c0cb3, 0x4ed8aa4a, 0x5b9cca4f, 0x682e6ff3,
   0x748f82ee, 0x78a5636f, 0x84c87814, 0x8cc70208, 0x90befffa, 0xa4506ceb, 0xbef9a3f7, 0xc67178f2]

/-- The eight working words. -/
structure Registers where
  (a b c d e f g h : Nat)

/-- The fractional parts of the square roots of the first eight primes. -/
def initial : Registers :=
  ⟨0x6a09e667, 0xbb67ae85, 0x3c6ef372, 0xa54ff53a, 0x510e527f, 0x9b05688c, 0x1f83d9ab, 0x5be0cd19⟩

def rounds : List Nat → List Nat → Registers → Registers
  | k :: ks, w :: ws, ⟨a, b, c, d, e, f, g, h⟩ =>
    let t := h + bigSigma1 e + choose e f g + k + w
    rounds ks ws ⟨word (t + bigSigma0 a + majority a b c), a, b, c, word (d + t), e, f, g⟩
  | _, _, registers => registers

def add (x y : Registers) : Registers :=
  ⟨word (x.a + y.a), word (x.b + y.b), word (x.c + y.c), word (x.d + y.d),
   word (x.e + y.e), word (x.f + y.f), word (x.g + y.g), word (x.h + y.h)⟩

def compress (registers : Registers) (block : Window) : Registers :=
  add registers (rounds roundConstants (schedule 64 block) registers)

/-!
## Blocks
-/

def bigEndian64 (n : Nat) : List UInt8 :=
  [.ofNat (n >>> 56), .ofNat (n >>> 48), .ofNat (n >>> 40), .ofNat (n >>> 32),
   .ofNat (n >>> 24), .ofNat (n >>> 16), .ofNat (n >>> 8), .ofNat n]

/-- The message, a one bit, zeros to eight bytes short of a block, and the count of bits. -/
def pad (message : List UInt8) : List UInt8 :=
  message ++ (0x80 :: List.replicate ((119 - message.length % 64) % 64) 0)
    ++ bigEndian64 (8 * message.length)

def words : List UInt8 → List Nat
  | a :: b :: c :: d :: rest =>
    (((a.toNat * 0x100 + b.toNat) * 0x100 + c.toNat) * 0x100 + d.toNat) :: words rest
  | _ => []

def foldBlocks : List Nat → Registers → Registers
  | w0 :: w1 :: w2 :: w3 :: w4 :: w5 :: w6 :: w7 :: w8 :: w9 :: w10 :: w11 :: w12 :: w13 :: w14 ::
      w15 :: rest, registers =>
    foldBlocks rest (compress registers
      ⟨w0, w1, w2, w3, w4, w5, w6, w7, w8, w9, w10, w11, w12, w13, w14, w15⟩)
  | _, registers => registers

end Sha256

def sha256 (message : List UInt8) : Digest :=
  let ⟨a, b, c, d, e, f, g, h⟩ :=
    Sha256.foldBlocks (Sha256.words (Sha256.pad message)) Sha256.initial
  ⟨.ofNat a, .ofNat b, .ofNat c, .ofNat d, .ofNat e, .ofNat f, .ofNat g, .ofNat h⟩

-- the digest of the text `abc`
example : sha256 [0x61, 0x62, 0x63] =
    ⟨0xba7816bf, 0x8f01cfea, 0x414140de, 0x5dae2223,
      0xb00361a3, 0x96177a9c, 0xb410ff61, 0xf20015ad⟩ := by decide +kernel

end Equational
