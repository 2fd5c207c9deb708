import Equational.Atom.Text
import Equational.Proofs.BareEvaluation

/-!
# What bare atoms show

The written form and the type of an atom show no marks, no stored parameters and
no native evaluations.  Making an atom bare twice makes it bare once.
-/

namespace Equational

namespace Atom

variable (f g : Option String → Option String)

theorem sameTerm_bare (atom : Atom) : SameTerm (atom.bare f) atom :=
  bare_bare f (fun _ => none) atom

theorem bare_beq (a b : Atom) : (bare f a == b) = (a == b) := by
  rw [Bool.eq_iff_iff, beq_iff, beq_iff, depth_bare, fingerprint_bare]

theorem flagText_bare (letter : String) (value : Option Atom) (text : String) :
    flagText letter (optionBare f value) text = flagText letter value text := by
  cases value with
  | none => rfl
  | some atom => simp only [optionBare, flagText, bool?_bare]

theorem elementText_bare (leading : Bool) (letter : String) (value : Option Atom) (text : String) :
    elementText leading letter (optionBare f value) text =
      elementText leading letter value text := by
  cases value <;> rfl

theorem isSome_optionBare (value : Option Atom) : (optionBare f value).isSome = value.isSome := by
  cases value <;> rfl

mutual

theorem text_bare : ∀ atom : Atom, (bare f atom).text = atom.text
  | typeUniverse _ => rfl
  | root _ _ => rfl
  | literal _ type _ => by rw [bare, text, text, bare_beq, text_bare type]
  | var _ type none _ _ => by rw [bare, optionBare, text, text, isAny_bare, text_bare type]
  | var _ type (some guard) _ _ => by
      rw [bare, optionBare, text, text, isAny_bare, text_bare type]
      simp only [text_bare guard]
  | lambda parameter body _ => by rw [bare, text, text, text_bare parameter, text_bare body]
  | sequence ⟨properties, elements⟩ _ => by
      rw [bare, text, text, propertiesText_bare properties, listTexts_bare elements]
  | propertySet properties _ => by rw [bare, text, text, propertiesText_bare properties]
  | operator ⟨_, _, _, _, _⟩ _ => by rw [bare, text, text]
  | application head argument _ _ => by
      have hhead := text_bare head
      have hargument := text_bare argument
      cases head with
      | operator op mark =>
          rcases op with ⟨_, _, _, _, _⟩
          cases argument with
          | sequence s mark =>
              rcases s with ⟨_, elements⟩
              rw [bare, bare, bare, text, text, listTexts_bare elements]
          | operator op mark =>
              rcases op with ⟨_, _, _, _, _⟩
              rfl
          | _ =>
              rw [bare, bare]
              exact congrArg (fun text => _ ++ "(" ++ text ++ ")") hargument
      | sequence s mark =>
          rcases s with ⟨_, _⟩
          exact congrArg₂ (fun first second => first ++ "." ++ second) hhead hargument
      | _ => exact congrArg₂ (fun first second => first ++ "." ++ second) hhead hargument

theorem listTexts_bare : ∀ list : List Atom, listTexts (listBare f list) = listTexts list
  | [] => rfl
  | atom :: rest => by rw [listBare, listTexts, listTexts, text_bare atom, listTexts_bare rest]

theorem optionText_bare : ∀ value : Option Atom, optionText (optionBare f value) = optionText value
  | none => rfl
  | some atom => by rw [optionBare, optionText, optionText, text_bare atom]

theorem propertiesText_bare : ∀ properties : PropertySet Atom,
    propertiesText (propertiesBare f properties) = propertiesText properties
  | ⟨a, c, i, b, d⟩ => by
      simp only [propertiesBare, propertiesText, isSome_optionBare, flagText_bare, elementText_bare,
        optionText_bare a, optionText_bare c, optionText_bare i, optionText_bare b,
        optionText_bare d]

end

theorem sameTerm_type_bare (atom : Atom) : SameTerm (bare f atom).type atom.type := by
  cases atom with
  | literal value type mark => exact sameTerm_bare f type
  | var name type guard index mark => exact sameTerm_bare f type
  | sequence s mark =>
      rw [bare_sequence]
      rfl
  | operator op mark =>
      rw [bare_operator]
      rfl
  | application head argument bound mark =>
      cases head with
      | operator op mark =>
          rcases op with ⟨name, properties, parameters, resultType, native⟩
          cases resultType with
          | none => rfl
          | some type => exact sameTerm_bare f type
      | sequence s mark =>
          rcases s with ⟨_, _⟩
          rfl
      | _ => rfl
  | _ => rfl

end Atom

end Equational
