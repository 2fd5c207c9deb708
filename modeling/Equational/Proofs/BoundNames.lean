import Equational.Proofs.Restoration

/-!
# Names of bound variables

A variable bound by a lambda has a name that tells its index.  The writer keeps
both, and the reader takes both as they are: what is read is named by its index
exactly if what was written is.
-/

namespace Equational

open Atom

/-- A variable that a lambda binds is named after its index. -/
def Atom.NamedByIndex : Atom → Prop
  | .var name _ _ index _ => index ≠ 0 → name = ":" ++ Number.natText index.toNat
  | _ => True

instance : DecidablePred Atom.NamedByIndex
  | .var name _ _ index _ =>
    inferInstanceAs (Decidable (index ≠ 0 → name = ":" ++ Number.natText index.toNat))
  | .typeUniverse _ | .root .. | .literal .. | .lambda .. | .sequence .. | .propertySet ..
  | .operator .. | .application .. => instDecidableTrue

theorem Atom.namedByIndex_bare {f : Option String → Option String} (atom : Atom) :
    NamedByIndex (atom.bare f) ↔ NamedByIndex atom := by
  cases atom with
  | sequence s mark => rw [bare_sequence]; exact Iff.rfl
  | operator op mark => rw [bare_operator]; exact Iff.rfl
  | _ => exact Iff.rfl

namespace Cbor

open Item

/-- The reader makes sure that all parts of an atom are well made, but it leaves the names of bound
variables to the writer. -/
theorem decode_built_of_any_names (bytes : List UInt8) (atom : Atom) :
    (Atom.decode bytes = .ok atom → atom.Everywhere WellMade) ∧
    (atom.Storable → atom.Everywhere WellMade → (atomItem atom).nesting ≤ nestingLimit →
      ∃ restored, Atom.decode atom.encode = .ok restored ∧
        (restored.Everywhere NamedByIndex ↔ atom.Everywhere NamedByIndex)) := by
  constructor
  · exact Atom.built_of_decode
  · intro hstorable hbuilt hnesting
    have hdecode := decode_encode_atom hstorable hbuilt
    rw [if_pos hnesting] at hdecode
    exact ⟨_, hdecode, everywhere_bare namedByIndex_bare atom⟩

/-- The identity is read again, and its variable is named by its index. -/
theorem decode_built_of_any_names_identity :
    ∃ restored, Atom.decode (Atom.encode (.lambda (.var ":1" .any none 1 .new)
        (.var ":1" .any none 1 .new) .new)) = .ok restored ∧
      restored.Everywhere WellMade ∧ restored.Everywhere NamedByIndex := by
  have hstorable : Storable (.lambda (.var ":1" .any none 1 .new) (.var ":1" .any none 1 .new)
      .new) := ⟨by decide, by decide +kernel⟩
  rcases (decode_built_of_any_names [] _).2 hstorable (by decide) (by decide +kernel) with
    ⟨restored, hdecode, hiff⟩
  exact ⟨restored, hdecode, (decode_built_of_any_names _ _).1 hdecode, hiff.mpr (by decide)⟩

/-- The bytes of a variable of index 1 whose name is `x`. -/
def misnamedBytes : List UInt8 :=
  [0xa1, 0x68, 0x56, 0x61, 0x72, 0x69, 0x61, 0x62, 0x6c, 0x65, 0xa3, 0x64, 0x6e, 0x61, 0x6d, 0x65,
    0x61, 0x78, 0x62, 0x74, 0x79, 0xa1, 0x68, 0x52, 0x6f, 0x6f, 0x74, 0x54, 0x79, 0x70, 0x65, 0x63,
    0x41, 0x4e, 0x59, 0x65, 0x69, 0x6e, 0x64, 0x65, 0x78, 0x01]

/-- They are read, though no bound variable has that name. -/
theorem decode_misnamed :
    Atom.decode misnamedBytes = .ok (.var "x" (.root "ANY" .new) none 1 .new) ∧
      ¬ NamedByIndex (.var "x" (.root "ANY" .new) none 1 .new) := by
  have hbytes : misnamedBytes = Atom.encode (.var "x" .any none 1 .new) := by decide +kernel
  have hstorable : Storable (.var "x" .any none 1 .new) := ⟨by decide, by decide +kernel⟩
  constructor
  · rw [hbytes, decode_encode_atom hstorable (by decide), if_pos (by decide +kernel)]
    rfl
  · decide

end Cbor

end Equational
