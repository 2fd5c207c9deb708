import Equational.Atom.Basic

/-!
# Identity of atoms

Every atom has a fingerprint: the digest of its kind, of its own data and of
the fingerprints of its parts.  Two atoms are equal when their depths and their
fingerprints agree.  Native evaluations, the parameters stored in applications
and marks have no part in this.
-/

namespace Equational

namespace Atom

mutual

def fingerprint : Atom → Digest
  | typeUniverse _ => .ofFields (utf8 "TYPE_UNIVERSE_V0") []
  | root name _ => .ofFields (utf8 "ROOT_TYPE_V0") [.text name]
  | literal value type _ =>
    .ofFields (utf8 "LITERAL_V0") (value.fields ++ [.digest type.fingerprint])
  | var name type guard index _ =>
    .ofFields (utf8 "VARIABLE_V0")
      [.word index, .text name, .digest type.fingerprint, .optional (optionFingerprint guard)]
  | lambda parameter body _ =>
    .ofFields (utf8 "LAMBDA_V0") [.digest parameter.fingerprint, .digest body.fingerprint]
  | sequence ⟨properties, elements⟩ _ =>
    .ofFields (utf8 "SEQUENCE_V0")
      (.digest (propertiesFingerprint properties) :: .word elements.length.toUInt64
        :: (listFingerprints elements).map .digest)
  | propertySet properties _ => propertiesFingerprint properties
  | operator op _ => operatorFingerprint op
  | application head argument _ _ =>
    .ofFields (utf8 "APPLY_V0") [.digest head.fingerprint, .digest argument.fingerprint]

def listFingerprints : List Atom → List Digest
  | [] => []
  | atom :: rest => atom.fingerprint :: listFingerprints rest

def optionFingerprint : Option Atom → Option Digest
  | none => none
  | some atom => some atom.fingerprint

/-- A property set marks each law as present or absent. -/
def propertiesFingerprint : PropertySet Atom → Digest
  | ⟨a, c, i, b, d⟩ =>
    .ofFields (utf8 "ALGPROP_V0")
      [.optional (optionFingerprint a), .optional (optionFingerprint c),
        .optional (optionFingerprint i), .optional (optionFingerprint b),
        .optional (optionFingerprint d)]

def operatorFingerprint : Operator Atom → Digest
  | ⟨name, properties, parameters, resultType, _⟩ =>
    .ofFields (utf8 "OPERATOR_V0")
      (.text name :: .digest (propertiesFingerprint properties)
        :: .word parameters.length.toUInt64 :: (listFingerprints parameters).map .digest
        ++ [.optional (optionFingerprint resultType)])

end

/-- Two atoms are equal when their depths and their fingerprints agree. -/
instance : BEq Atom where
  beq a b := a.depth == b.depth && a.fingerprint == b.fingerprint

theorem beq_iff (a b : Atom) :
    (a == b) = true ↔ a.depth = b.depth ∧ a.fingerprint = b.fingerprint := by
  simp [BEq.beq]

@[simp] theorem depth_withMark (mark : Mark) (atom : Atom) :
    (atom.withMark mark).depth = atom.depth := by
  cases atom <;> simp [withMark, depth]

@[simp] theorem fingerprint_withMark (mark : Mark) (atom : Atom) :
    (atom.withMark mark).fingerprint = atom.fingerprint := by
  cases atom <;> simp [withMark, fingerprint]

theorem beq_withMark (mark : Mark) (atom : Atom) : (atom.withMark mark == atom) = true := by
  rw [beq_iff]
  constructor
  · exact depth_withMark mark atom
  · exact fingerprint_withMark mark atom

end Atom

namespace PropertySet

def fingerprint (properties : Properties) : Digest := Atom.propertiesFingerprint properties

/-- Property sets are equal when they specify the same laws by equal atoms. -/
instance : BEq Properties where
  beq a b := a.associative == b.associative && a.commutative == b.commutative &&
    a.idempotent == b.idempotent && a.absorber == b.absorber && a.identity == b.identity

end PropertySet

namespace Operator

def fingerprint (op : Operator Atom) : Digest := Atom.operatorFingerprint op

/-- Operators are equal when their names and their fingerprints agree. -/
instance : BEq (Operator Atom) where
  beq a b := a.name == b.name && a.fingerprint == b.fingerprint

end Operator

namespace NameMap

/-- Binding sets are equal when they bind the same names to equal atoms. -/
instance : BEq Bindings where
  beq a b := a.entries == b.entries

end NameMap

end Equational
