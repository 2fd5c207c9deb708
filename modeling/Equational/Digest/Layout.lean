import Equational.Digest.Sha256

/-!
# Byte layouts under a hash domain

What is hashed is a list of fields.  Fields of variable length carry their
length in front, an optional digest carries a presence marker, and the whole is
hashed under the name of a domain, so that neither two adjacent fields nor two
kinds of value can be confused.
-/

namespace Equational

def littleEndian64 (n : UInt64) : List UInt8 :=
  [n.toUInt8, (n >>> 8).toUInt8, (n >>> 16).toUInt8, (n >>> 24).toUInt8,
   (n >>> 32).toUInt8, (n >>> 40).toUInt8, (n >>> 48).toUInt8, (n >>> 56).toUInt8]

def utf8 (s : String) : List UInt8 := s.toUTF8.data.toList

namespace Digest

/-- Hashes data under a domain: a fixed head, the domain, the length of the data, the data. -/
def underDomain (domain data : List UInt8) : Digest :=
  sha256 (utf8 "ACT:" ++ domain ++ utf8 ":v1" ++ littleEndian64 data.length.toUInt64 ++ data)

/-- One field of a layout. -/
inductive Field where
  | tag (value : UInt8)
  | word (value : UInt64)
  | bytes (value : List UInt8)
  | text (value : String)
  | digest (value : Digest)
  | optional (value : Option Digest)

namespace Field

/-- Length first, then the bytes. -/
def counted (value : List UInt8) : List UInt8 :=
  littleEndian64 value.length.toUInt64 ++ value

def encode : Field → List UInt8
  | tag value => [value]
  | word value => littleEndian64 value
  | bytes value => counted value
  | text value => counted (utf8 value)
  | digest value => value.bytes
  | optional none => [0]
  | optional (some value) => 1 :: value.bytes

end Field

def ofFields (domain : List UInt8) (fields : List Field) : Digest :=
  underDomain domain (fields.flatMap Field.encode)

end Digest

end Equational
