import Equational.Atom.Checked
import Equational.Proofs.BareText
import Equational.Proofs.Normalization
import Equational.Proofs.Parts

/-!
# Well-made atoms

Every atom is built through checks: of parameters, of property sets and of the
normal form of sequences.  What they make sure of is a condition on each of the
parts of an atom.
-/

namespace Equational

/-!
## What building makes sure of
-/

namespace Atom

/-- What the building of an atom makes sure of: parameters of lambdas are bound variables, those of
operators are pattern variables, property sets are legal, and sequences are normal. -/
def WellMade : Atom → Prop
  | lambda parameter _ _ => parameter.isBoundVar = true
  | sequence s _ =>
    s.properties.checked = .ok s.properties ∧
      Sequence.normalize s.properties s.elements = s.elements
  | propertySet properties _ => properties.checked = .ok properties
  | operator op _ => op.properties.checked = .ok op.properties ∧ op.checked = .ok op
  | _ => True

/-!
## Conditions that bare atoms share

What building makes sure of does not see whether an atom is bare, so it may be shown of all parts
of the bare atom.
-/

section

variable {f : Option String → Option String} {p : Atom → Prop}

theorem everywhere_bare (h : ∀ atom, p (bare f atom) ↔ p atom) (atom : Atom) :
    Everywhere p (bare f atom) ↔ Everywhere p atom := by
  induction atom using parts_induction with
  | step atom ih =>
      rw [everywhere_iff, @everywhere_iff p atom, parts_bare, List.forall_mem_map]
      exact and_congr (h atom) (forall₂_congr ih)

theorem optionEverywhere_bare (h : ∀ atom, p (bare f atom) ↔ p atom) (value : Option Atom) :
    OptionEverywhere p (optionBare f value) ↔ OptionEverywhere p value := by
  cases value with
  | none => exact Iff.rfl
  | some atom => exact everywhere_bare h atom

theorem propertiesEverywhere_bare (h : ∀ atom, p (bare f atom) ↔ p atom) (properties : Properties) :
    PropertiesEverywhere p (propertiesBare f properties) ↔ PropertiesEverywhere p properties := by
  change PropertiesEverywhere p (properties.bare f) ↔ _
  rw [propertiesEverywhere_iff_values, propertiesEverywhere_iff_values, values_bare,
    List.forall_mem_map]
  exact forall₂_congr fun value _ => everywhere_bare h value

end

end Atom

/-!
## What normalization keeps

Every element of a normal form stood in the list or in a sequence in it, and whether a list is in
normal form shows in its length and its span.
-/

namespace Sequence

open Atom

variable {properties : Properties}

theorem listSpan_le_of_sublist {list other : List Atom} (h : list.Sublist other) :
    listSpan list ≤ listSpan other := by
  have hspan := listSpan_add_length_le h
  have hlength := h.length_le
  omega

theorem listSpan_normalize_le (list : List Atom) :
    listSpan (normalize properties list) ≤ listSpan list := by
  have hpruned := listSpan_le_of_sublist (pruned_sublist properties list)
  cases hassociative : properties.isAssociative with
  | false => rwa [normalize_of_not_associative hassociative]
  | true =>
      induction hspan : listSpan list using Nat.strongRecOn generalizing list with
      | ind span ih =>
          rcases normalize_cases hassociative list with
            ⟨absorber, hsplice, h⟩ | ⟨-, -, h⟩ | ⟨next, changed, -, hnext, h⟩
          · rw [h, ← hspan]
            exact Nat.le_trans (listSpan_le_of_sublist
              (List.singleton_sublist.mpr (absorber_of_splice hsplice).2)) hpruned
          · exact Nat.le_of_eq (by rw [h, hspan])
          · rw [hspan] at hnext
            have hle := ih _ hnext next
              (listSpan_le_of_sublist (pruned_sublist properties next)) rfl
            rw [h]
            omega

theorem normalize_eq_self_of_listSpan {list : List Atom}
    (hlength : (normalize properties list).length = list.length)
    (hspan : listSpan (normalize properties list) = listSpan list) :
    normalize properties list = list := by
  cases hassociative : properties.isAssociative with
  | false =>
      rw [normalize_of_not_associative hassociative] at hlength ⊢
      exact (pruned_sublist properties list).eq_of_length hlength
  | true =>
      rcases normalize_cases hassociative list with
        ⟨absorber, hsplice, h⟩ | ⟨-, -, h⟩ | ⟨next, changed, -, hnext, h⟩
      · have hmem := (pruned_sublist properties list).subset (absorber_of_splice hsplice).2
        rw [h] at hlength ⊢
        exact (List.singleton_sublist.mpr hmem).eq_of_length hlength
      · exact h
      · have hle := @listSpan_normalize_le properties next
        rw [h] at hspan
        omega

theorem normalize_eq_self_iff {list : List Atom} : normalize properties list = list ↔
    (normalize properties list).length = list.length ∧
      listSpan (normalize properties list) = listSpan list :=
  ⟨fun h => ⟨congrArg _ h, congrArg _ h⟩, fun h => normalize_eq_self_of_listSpan h.1 h.2⟩

/-- A list in normal form is a single absorber, or there is nothing in it for a pass to change. -/
theorem kept_of_normalize (hassociative : properties.isAssociative = true) {list : List Atom}
    (h : normalize properties list = list) :
    (∃ absorber, (properties.absorber == some absorber) = true ∧ list = [absorber]) ∨
      pruned properties list = list ∧ ∀ atom ∈ list,
        (properties.absorber == some atom) = false ∧ opened properties atom = none := by
  have hkept : ∀ list : List Atom, splice properties list = .elements list false → ∀ atom ∈ list,
      (properties.absorber == some atom) = false ∧ opened properties atom = none := by
    intro list hsplice
    induction list with
    | nil => exact List.forall_mem_nil _
    | cons atom rest ih =>
        cases habsorber : properties.absorber == some atom with
        | true =>
            rw [splice_cons_absorber habsorber] at hsplice
            cases hsplice
        | false =>
            cases hopened : opened properties atom with
            | some front =>
                rw [splice_cons_opened habsorber hopened] at hsplice
                rcases Spliced.splice_eq_elements hsplice with ⟨-, -, -, -, hchanged⟩
                cases hchanged
            | none =>
                rw [splice_cons_kept habsorber hopened] at hsplice
                rcases Spliced.cons_eq_elements hsplice with ⟨tail, htail, heq⟩
                rw [← (List.cons.inj heq).2] at htail
                exact List.forall_mem_cons.mpr ⟨⟨habsorber, hopened⟩, ih htail⟩
  rcases normalize_cases hassociative list with
    ⟨absorber, hsplice, hnormal⟩ | ⟨hpruned, hsplice, -⟩ | ⟨next, changed, -, hlt, hnormal⟩
  · exact .inl ⟨absorber, (absorber_of_splice hsplice).1, h.symm.trans hnormal⟩
  · exact .inr ⟨hpruned, hkept list hsplice⟩
  · have hle := @listSpan_normalize_le properties next
    rw [← hnormal, h] at hle
    omega

theorem normalize_eq_self_bare {f : Option String → Option String} {list : List Atom} :
    normalize (properties.bare f) (list.map (Atom.bare f)) = list.map (Atom.bare f) ↔
      normalize properties list = list := by
  constructor
  · intro h
    have hbare : (normalize properties list).map (Atom.bare f) = list.map (Atom.bare f) := by
      rw [← h, normalize_bare]
    apply normalize_eq_self_of_listSpan
    · simpa only [List.length_map] using congrArg List.length hbare
    · have hspan := congrArg listSpan hbare
      simpa only [← listBare_eq_map, listSpan_bare] using hspan
  · intro h
    rw [normalize_bare, h]

section

variable {p : Atom → Prop}
  (hsequence : ∀ s mark, p (.sequence s mark) → ∀ atom ∈ s.elements, p atom)
include hsequence

theorem forall_mem_opened {atom : Atom} {front : List Atom}
    (hopened : opened properties atom = some front) (h : p atom) : ∀ other ∈ front, p other := by
  unfold opened at hopened
  split at hopened
  · cases hopened
    exact fun _ hother => absurd hother List.not_mem_nil
  · rcases Option.map_eq_some_iff.mp hopened with ⟨inner, hinner, rfl⟩
    have hinner := Option.eq_some_of_filter_eq_some hinner
    cases atom with
    | sequence inner mark =>
        cases hinner
        exact hsequence inner mark h
    | _ => cases hinner

theorem forall_mem_splice {list next : List Atom} {changed : Bool}
    (hsplice : splice properties list = .elements next changed) (h : ∀ atom ∈ list, p atom) :
    ∀ atom ∈ next, p atom := by
  induction list generalizing next changed with
  | nil =>
      cases hsplice
      exact h
  | cons atom rest ih =>
      rw [List.forall_mem_cons] at h
      cases habsorber : properties.absorber == some atom with
      | true =>
          rw [splice_cons_absorber habsorber] at hsplice
          cases hsplice
      | false =>
          cases hopened : opened properties atom with
          | some front =>
              rw [splice_cons_opened habsorber hopened] at hsplice
              rcases Spliced.splice_eq_elements hsplice with ⟨tail, flag, htail, rfl, -⟩
              rw [List.forall_mem_append]
              exact ⟨forall_mem_opened hsequence hopened h.1, ih htail h.2⟩
          | none =>
              rw [splice_cons_kept habsorber hopened] at hsplice
              rcases Spliced.cons_eq_elements hsplice with ⟨tail, htail, rfl⟩
              rw [List.forall_mem_cons]
              exact ⟨h.1, ih htail h.2⟩

/-- Every element of a normal form stood in the list or in sequences that were spliced into it. -/
theorem forall_mem_normalize {list : List Atom} (h : ∀ atom ∈ list, p atom) :
    ∀ atom ∈ normalize properties list, p atom := by
  have hpruned : ∀ {list : List Atom}, (∀ atom ∈ list, p atom) →
      ∀ atom ∈ pruned properties list, p atom := fun h atom hatom =>
    h atom ((pruned_sublist properties _).subset hatom)
  cases hassociative : properties.isAssociative with
  | false =>
      rw [normalize_of_not_associative hassociative]
      exact hpruned h
  | true =>
      induction hspan : listSpan list using Nat.strongRecOn generalizing list with
      | ind span ih =>
          rcases normalize_cases hassociative list with
            ⟨absorber, hsplice, hnormal⟩ | ⟨-, -, hnormal⟩ |
              ⟨next, changed, hsplice, hnext, hnormal⟩
          · rw [hnormal]
            exact List.forall_mem_singleton.mpr (hpruned h absorber (absorber_of_splice hsplice).2)
          · rwa [hnormal]
          · rw [hnormal]
            rw [hspan] at hnext
            exact ih _ hnext (forall_mem_splice hsequence hsplice (hpruned h)) rfl

end

end Sequence

/-!
## What is built is well made

A check changes nothing, and the normal sequence of built atoms is built if its properties are
legal.
-/

namespace Atom

theorem Everywhere.elements {p : Atom → Prop} {s : Sequence Atom} {mark : Mark}
    (h : (sequence s mark).Everywhere p) : ListEverywhere p s.elements := by
  rcases s with ⟨properties, elements⟩
  exact h.2.2

theorem Everywhere.properties {p : Atom → Prop} {op : Operator Atom} {mark : Mark}
    (h : (operator op mark).Everywhere p) : PropertiesEverywhere p op.properties := by
  rcases op with ⟨name, properties, parameters, resultType, native⟩
  exact h.2.1

theorem Everywhere.parameters {p : Atom → Prop} {op : Operator Atom} {mark : Mark}
    (h : (operator op mark).Everywhere p) : ListEverywhere p op.parameters := by
  rcases op with ⟨name, properties, parameters, resultType, native⟩
  exact h.2.2.1

theorem listEverywhere_normalize {p : Atom → Prop} {properties : Properties} {list : List Atom}
    (h : ListEverywhere p list) : ListEverywhere p (Sequence.normalize properties list) := by
  rw [listEverywhere_iff] at h ⊢
  exact Sequence.forall_mem_normalize (fun _ _ h => listEverywhere_iff.mp h.elements) h

variable {f : Option String → Option String}

theorem checked_properties_iff {properties : Properties} : properties.checked = .ok properties ↔
    (properties.notBoolean?.or properties.lacksAssociative?).isSome = false := by
  unfold PropertySet.checked
  cases properties.notBoolean?.or properties.lacksAssociative? with
  | none => exact ⟨fun _ => rfl, fun _ => rfl⟩
  | some error =>
      constructor
      · intro h
        cases h
      · intro h
        cases h

theorem checked_properties_bare {properties : Properties} :
    (properties.bare f).checked = .ok (properties.bare f) ↔
      properties.checked = .ok properties := by
  rw [checked_properties_iff, checked_properties_iff, Option.isSome_or, Option.isSome_or,
    PropertySet.isSome_notBoolean?_bare, PropertySet.lacksAssociative?_bare]

theorem checked_operator_iff {op : Operator Atom} :
    op.checked = .ok op ↔ ∀ parameter ∈ op.parameters, parameter.isFreeVar = true := by
  unfold Operator.checked
  cases hfind : op.parameters.find? fun parameter => !parameter.isFreeVar with
  | none =>
      rw [List.find?_eq_none] at hfind
      exact ⟨fun _ => by simpa using hfind, fun _ => rfl⟩
  | some atom =>
      have hatom := List.find?_some hfind
      have hmem := List.mem_of_find?_eq_some hfind
      constructor
      · intro h
        cases h
      · intro h
        rw [h atom hmem] at hatom
        cases hatom

theorem checked_operator_bare {op : Operator Atom} :
    (op.bare f).checked = .ok (op.bare f) ↔ op.checked = .ok op := by
  rw [checked_operator_iff, checked_operator_iff]
  change (∀ parameter ∈ op.parameters.map (bare f), parameter.isFreeVar = true) ↔ _
  rw [List.forall_mem_map]
  simp only [isFreeVar_bare]

theorem wellMade_bare (atom : Atom) : WellMade (atom.bare f) ↔ WellMade atom := by
  cases atom with
  | lambda parameter body mark =>
      rw [bare_lambda, WellMade, WellMade, isBoundVar_bare]
  | sequence s mark =>
      rw [bare_sequence, WellMade, WellMade]
      exact and_congr checked_properties_bare Sequence.normalize_eq_self_bare
  | propertySet properties mark =>
      rw [bare_propertySet, WellMade, WellMade, checked_properties_bare]
  | operator op mark =>
      rw [bare_operator, WellMade, WellMade]
      exact and_congr checked_properties_bare checked_operator_bare
  | _ => exact Iff.rfl

instance : DecidablePred WellMade
  | lambda parameter _ _ => inferInstanceAs (Decidable (parameter.isBoundVar = true))
  | sequence _ _ =>
    @instDecidableAnd _ _ (decidable_of_iff _ checked_properties_iff.symm)
      (decidable_of_iff _ Sequence.normalize_eq_self_iff.symm)
  | propertySet _ _ => decidable_of_iff _ checked_properties_iff.symm
  | operator _ _ =>
    @instDecidableAnd _ _ (decidable_of_iff _ checked_properties_iff.symm)
      (decidable_of_iff _ checked_operator_iff.symm)
  | typeUniverse _ | root .. | literal .. | var .. | application .. => instDecidableTrue

/-- All parts of the atom are well made. -/
def Built (atom : Atom) : Prop := atom.Everywhere WellMade

instance (atom : Atom) : Decidable atom.Built := inferInstanceAs (Decidable (atom.Everywhere _))

theorem Built.of_like {a b : Atom} (h : Like f a b) (ha : a.Built) : b.Built := by
  rw [Built, ← everywhere_bare wellMade_bare] at ha ⊢
  rwa [← h]

theorem built_marked {place : Place} {atom : Atom} : (atom.marked place).Built ↔ atom.Built :=
  ⟨fun h => h.of_like (like_marked (f := id) place atom),
    fun h => h.of_like (like_marked (f := id) place atom).symm⟩

theorem built_application {head argument : Atom} {bound : Bindings} {mark : Mark} :
    (application head argument bound mark).Built ↔ head.Built ∧ argument.Built :=
  ⟨fun h => h.2, fun h => ⟨trivial, h⟩⟩

theorem built_ofList {properties : Properties} {list : List Atom} {mark : Mark}
    (hproperties : (propertySet properties mark).Built) (hlist : ∀ atom ∈ list, atom.Built) :
    (sequence (.ofList properties list) mark).Built :=
  ⟨⟨hproperties.1, Sequence.normalize_normalize properties list⟩, hproperties.2,
    listEverywhere_normalize (listEverywhere_iff.mpr hlist)⟩

theorem eq_of_checked {properties legal : Properties} (h : properties.checked = .ok legal) :
    properties = legal := by
  unfold PropertySet.checked at h
  split at h
  · cases h
  · exact Except.ok.inj h

theorem built_of_checked {properties legal : Properties} {mark : Mark}
    (hlegal : properties.checked = .ok legal) (h : PropertiesEverywhere WellMade properties) :
    (propertySet legal mark).Built := by
  rw [eq_of_checked hlegal] at h hlegal
  exact ⟨hlegal, h⟩

theorem built_of_checked_operator {op legal : Operator Atom} {mark : Mark}
    (hlegal : op.checked = .ok legal) (hproperties : (propertySet op.properties .new).Built)
    (hparameters : ListEverywhere WellMade op.parameters)
    (hresult : OptionEverywhere WellMade op.resultType) : (operator legal mark).Built := by
  have hsame : op = legal := by
    unfold Operator.checked at hlegal
    split at hlegal
    · cases hlegal
    · exact Except.ok.inj hlegal
  rw [hsame] at hlegal hproperties hparameters hresult
  rcases legal with ⟨name, properties, parameters, resultType, native⟩
  exact ⟨⟨hproperties.1, hlegal⟩, hproperties.2, hparameters, hresult⟩

theorem built_checkedLambda {parameter body lambda : Atom}
    (hlambda : checkedLambda parameter body = .ok lambda) (hparameter : parameter.Built)
    (hbody : body.Built) : lambda.Built := by
  unfold checkedLambda at hlambda
  split at hlambda
  · rename_i hbound
    cases hlambda
    exact ⟨hbound, hparameter, hbody⟩
  · cases hlambda

end Atom

end Equational
