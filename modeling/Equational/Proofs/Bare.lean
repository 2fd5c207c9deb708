import Mathlib.Data.List.Forall2
import Equational.Proofs.Parts
import Equational.Sequence.Normal

/-!
# Bare atoms

Marks and the parameters stored in applications have no part in what a term is,
and native evaluations have no part in equality.  An atom is made bare by
dropping the former, and by putting the native evaluations through a function:
the identity keeps them, a constant function forgets them.  Equality, depth,
constancy and binding indices do not see the difference, so that bare atoms
that agree belong to equal atoms.  The converse is what the absence of a
collision of the hash means.
-/

namespace Equational

/-!
## Making atoms bare
-/

namespace Atom

mutual

/-- The atom without marks and stored parameters, its native evaluations put through a
function. -/
def bare (f : Option String → Option String) : Atom → Atom
  | typeUniverse _ => typeUniverse .new
  | root name _ => root name .new
  | literal value type _ => literal value (bare f type) .new
  | var name type guard index _ => var name (bare f type) (optionBare f guard) index .new
  | lambda parameter body _ => lambda (bare f parameter) (bare f body) .new
  | sequence ⟨properties, elements⟩ _ =>
    sequence ⟨propertiesBare f properties, listBare f elements⟩ .new
  | propertySet properties _ => propertySet (propertiesBare f properties) .new
  | operator ⟨name, properties, parameters, resultType, native⟩ _ =>
    operator ⟨name, propertiesBare f properties, listBare f parameters,
      optionBare f resultType, f native⟩ .new
  | application head argument _ _ => application (bare f head) (bare f argument) .empty .new

def listBare (f : Option String → Option String) : List Atom → List Atom
  | [] => []
  | atom :: rest => bare f atom :: listBare f rest

def optionBare (f : Option String → Option String) : Option Atom → Option Atom
  | none => none
  | some atom => some (bare f atom)

def propertiesBare (f : Option String → Option String) : PropertySet Atom → PropertySet Atom
  | ⟨a, c, i, b, d⟩ =>
    ⟨optionBare f a, optionBare f c, optionBare f i, optionBare f b, optionBare f d⟩

end

variable (f : Option String → Option String)

theorem listBare_eq_map (list : List Atom) : listBare f list = list.map (bare f) := by
  induction list with
  | nil => rfl
  | cons atom rest ih => rw [listBare, ih, List.map_cons]

theorem length_listBare (list : List Atom) : (listBare f list).length = list.length := by
  rw [listBare_eq_map, List.length_map]

theorem optionBare_eq_map (value : Option Atom) : optionBare f value = value.map (bare f) := by
  cases value <;> rfl

/-!
## What stays the same
-/

mutual

@[simp] theorem depth_bare : ∀ atom : Atom, (bare f atom).depth = atom.depth
  | typeUniverse _ => rfl
  | root _ _ => rfl
  | literal _ _ _ => by simp [bare, depth]
  | var _ _ _ _ _ => by simp [bare, depth]
  | lambda parameter body _ => by
      simp [bare, depth, depth_bare parameter, depth_bare body]
  | sequence ⟨_, elements⟩ _ => by simp [bare, depth, listDepth_bare elements]
  | propertySet properties _ => by simp [bare, depth, propertiesDepth_bare properties]
  | operator _ _ => by simp [bare, depth]
  | application head argument _ _ => by
      simp [bare, depth, depth_bare head, depth_bare argument]

theorem listDepth_bare : ∀ list : List Atom, listDepth (listBare f list) = listDepth list
  | [] => rfl
  | atom :: rest => by simp [listBare, listDepth, depth_bare atom, listDepth_bare rest]

theorem optionDepth_bare : ∀ value : Option Atom,
    optionDepth (optionBare f value) = optionDepth value
  | none => rfl
  | some atom => by simp [optionBare, optionDepth, depth_bare atom]

theorem propertiesDepth_bare : ∀ properties : PropertySet Atom,
    propertiesDepth (propertiesBare f properties) = propertiesDepth properties
  | ⟨a, c, i, b, d⟩ => by
      simp [propertiesBare, propertiesDepth, optionDepth_bare a, optionDepth_bare c,
        optionDepth_bare i, optionDepth_bare b, optionDepth_bare d]

end

mutual

@[simp] theorem bindingIndex_bare : ∀ atom : Atom,
    (bare f atom).bindingIndex = atom.bindingIndex
  | typeUniverse _ => rfl
  | root _ _ => rfl
  | literal _ _ _ => by simp [bare, bindingIndex]
  | var _ _ _ _ _ => by simp [bare, bindingIndex]
  | lambda parameter _ _ => by simp [bare, bindingIndex, bindingIndex_bare parameter]
  | sequence ⟨properties, elements⟩ _ => by
      simp [bare, bindingIndex, propertiesIndex_bare properties, listIndex_bare elements]
  | propertySet properties _ => by simp [bare, bindingIndex, propertiesIndex_bare properties]
  | operator _ _ => by simp [bare, bindingIndex]
  | application head argument _ _ => by
      simp [bare, bindingIndex, bindingIndex_bare head, bindingIndex_bare argument]

theorem listIndex_bare : ∀ list : List Atom, listIndex (listBare f list) = listIndex list
  | [] => rfl
  | atom :: rest => by simp [listBare, listIndex, bindingIndex_bare atom, listIndex_bare rest]

theorem optionIndex_bare : ∀ value : Option Atom,
    optionIndex (optionBare f value) = optionIndex value
  | none => rfl
  | some atom => by simp [optionBare, optionIndex, bindingIndex_bare atom]

theorem propertiesIndex_bare : ∀ properties : PropertySet Atom,
    propertiesIndex (propertiesBare f properties) = propertiesIndex properties
  | ⟨a, c, i, b, d⟩ => by
      simp [propertiesBare, propertiesIndex, optionIndex_bare a, optionIndex_bare c,
        optionIndex_bare i, optionIndex_bare b, optionIndex_bare d]

end

mutual

@[simp] theorem fingerprint_bare : ∀ atom : Atom,
    (bare f atom).fingerprint = atom.fingerprint
  | typeUniverse _ => by simp [bare, fingerprint]
  | root _ _ => by simp [bare, fingerprint]
  | literal _ type _ => by simp [bare, fingerprint, fingerprint_bare type]
  | var _ type guard _ _ => by
      simp [bare, fingerprint, fingerprint_bare type, optionFingerprint_bare guard]
  | lambda parameter body _ => by
      simp [bare, fingerprint, fingerprint_bare parameter, fingerprint_bare body]
  | sequence ⟨properties, elements⟩ _ => by
      simp [bare, fingerprint, propertiesFingerprint_bare properties,
        listFingerprints_bare elements, length_listBare]
  | propertySet properties _ => by
      simp [bare, fingerprint, propertiesFingerprint_bare properties]
  | operator ⟨_, properties, parameters, resultType, _⟩ _ => by
      simp [bare, fingerprint, operatorFingerprint, propertiesFingerprint_bare properties,
        listFingerprints_bare parameters, optionFingerprint_bare resultType, length_listBare]
  | application head argument _ _ => by
      simp [bare, fingerprint, fingerprint_bare head, fingerprint_bare argument]

theorem listFingerprints_bare : ∀ list : List Atom,
    listFingerprints (listBare f list) = listFingerprints list
  | [] => rfl
  | atom :: rest => by
      simp [listBare, listFingerprints, fingerprint_bare atom, listFingerprints_bare rest]

theorem optionFingerprint_bare : ∀ value : Option Atom,
    optionFingerprint (optionBare f value) = optionFingerprint value
  | none => rfl
  | some atom => by simp [optionBare, optionFingerprint, fingerprint_bare atom]

theorem propertiesFingerprint_bare : ∀ properties : PropertySet Atom,
    propertiesFingerprint (propertiesBare f properties) = propertiesFingerprint properties
  | ⟨a, c, i, b, d⟩ => by
      simp [propertiesBare, propertiesFingerprint, optionFingerprint_bare a,
        optionFingerprint_bare c, optionFingerprint_bare i, optionFingerprint_bare b,
        optionFingerprint_bare d]

end

end Atom

/-!
## Property sets, sequences, operators and binding sets
-/

section

variable (f : Option String → Option String)

def PropertySet.bare (properties : Properties) : Properties :=
  Atom.propertiesBare f properties

def Sequence.bare (s : Sequence Atom) : Sequence Atom :=
  ⟨s.properties.bare f, s.elements.map (Atom.bare f)⟩

def Operator.bare (op : Operator Atom) : Operator Atom :=
  ⟨op.name, op.properties.bare f, op.parameters.map (Atom.bare f),
    op.resultType.map (Atom.bare f), f op.native⟩

def NameMap.bare (binds : Bindings) : Bindings :=
  ⟨binds.entries.map fun entry => (entry.1, entry.2.bare f)⟩

namespace Atom

@[simp] theorem bare_root (name : String) (mark : Mark) :
    bare f (root name mark) = root name .new := rfl

@[simp] theorem bare_literal (value : Literal) (type : Atom) (mark : Mark) :
    bare f (literal value type mark) = literal value (bare f type) .new := rfl

@[simp] theorem bare_var (name : String) (type : Atom) (guard : Option Atom) (index : UInt64)
    (mark : Mark) :
    bare f (var name type guard index mark) =
      var name (bare f type) (guard.map (bare f)) index .new := by
  rw [bare, optionBare_eq_map]

@[simp] theorem bare_lambda (parameter body : Atom) (mark : Mark) :
    bare f (lambda parameter body mark) = lambda (bare f parameter) (bare f body) .new := rfl

@[simp] theorem bare_sequence (s : Sequence Atom) (mark : Mark) :
    bare f (sequence s mark) = sequence (s.bare f) .new := by
  cases s
  rw [bare, listBare_eq_map]
  rfl

@[simp] theorem bare_propertySet (properties : Properties) (mark : Mark) :
    bare f (propertySet properties mark) = propertySet (properties.bare f) .new := rfl

@[simp] theorem bare_operator (op : Operator Atom) (mark : Mark) :
    bare f (operator op mark) = operator (op.bare f) .new := by
  cases op
  rw [bare, listBare_eq_map, optionBare_eq_map]
  rfl

@[simp] theorem bare_application (head argument : Atom) (bound : Bindings) (mark : Mark) :
    bare f (application head argument bound mark) =
      application (bare f head) (bare f argument) .empty .new := rfl

@[simp] theorem bare_withMark (mark : Mark) (atom : Atom) :
    bare f (atom.withMark mark) = bare f atom := by
  cases atom <;> simp [withMark]
  rfl

@[simp] theorem isAny_bare (atom : Atom) : (bare f atom).isAny = atom.isAny := by
  cases atom <;> simp [isAny, bare]

@[simp] theorem bool?_bare (atom : Atom) : (bare f atom).bool? = atom.bool? := by
  cases atom with
  | literal value type mark => cases value <;> rfl
  | _ => simp [bool?, bare]

@[simp] theorem int?_bare (atom : Atom) : (bare f atom).int? = atom.int? := by
  cases atom with
  | literal value type mark => cases value <;> rfl
  | _ => simp [int?, bare]

@[simp] theorem isStructured_bare (atom : Atom) :
    (bare f atom).isStructured = atom.isStructured := by
  cases atom <;> simp [isStructured, bare]

@[simp] theorem key_bare (atom : Atom) : (bare f atom).key = atom.key := by
  simp [key]

end Atom

namespace PropertySet

@[simp] theorem get_bare (properties : Properties) (law : Law) :
    (properties.bare f).get law = (properties.get law).map (Atom.bare f) := by
  cases properties
  cases law <;> simp [bare, Atom.propertiesBare, get, Atom.optionBare_eq_map]

@[simp] theorem associative_bare (properties : Properties) :
    (properties.bare f).associative = properties.associative.map (Atom.bare f) :=
  get_bare f properties .associative

@[simp] theorem commutative_bare (properties : Properties) :
    (properties.bare f).commutative = properties.commutative.map (Atom.bare f) :=
  get_bare f properties .commutative

@[simp] theorem idempotent_bare (properties : Properties) :
    (properties.bare f).idempotent = properties.idempotent.map (Atom.bare f) :=
  get_bare f properties .idempotent

@[simp] theorem absorber_bare (properties : Properties) :
    (properties.bare f).absorber = properties.absorber.map (Atom.bare f) :=
  get_bare f properties .absorber

@[simp] theorem identity_bare (properties : Properties) :
    (properties.bare f).identity = properties.identity.map (Atom.bare f) :=
  get_bare f properties .identity

theorem holds_map_bare (value : Option Atom) : holds (value.map (Atom.bare f)) = holds value := by
  cases value <;> simp [holds]

@[simp] theorem isAssociative_bare (properties : Properties) :
    (properties.bare f).isAssociative = properties.isAssociative := by
  rw [isAssociative, associative_bare, holds_map_bare, isAssociative]

@[simp] theorem isCommutative_bare (properties : Properties) :
    (properties.bare f).isCommutative = properties.isCommutative := by
  rw [isCommutative, commutative_bare, holds_map_bare, isCommutative]

@[simp] theorem isIdempotent_bare (properties : Properties) :
    (properties.bare f).isIdempotent = properties.isIdempotent := by
  rw [isIdempotent, idempotent_bare, holds_map_bare, isIdempotent]

end PropertySet

theorem Operator.fingerprint_bare (op : Operator Atom) :
    (op.bare f).fingerprint = op.fingerprint := by
  have h := Atom.fingerprint_bare f (.operator op .new)
  rwa [Atom.bare_operator] at h

namespace NameMap

@[simp] theorem find?_bare (binds : Bindings) (name : String) :
    (binds.bare f).find? name = (binds.find? name).map (Atom.bare f) := by
  unfold find? bare
  induction binds.entries with
  | nil => rfl
  | cons entry rest ih =>
      rw [List.map_cons, List.lookup_cons, List.lookup_cons]
      cases name == entry.1 with
      | true => rfl
      | false => exact ih

@[simp] theorem isEmpty_bare (binds : Bindings) : (binds.bare f).isEmpty = binds.isEmpty := by
  simp [isEmpty, bare]

@[simp] theorem bare_empty : (empty : Bindings).bare f = empty := rfl

@[simp] theorem bare_insert (binds : Bindings) (name : String) (atom : Atom) :
    (binds.insert name atom).bare f = (binds.bare f).insert name (atom.bare f) := by
  have h : ∀ entries : List (String × Atom),
      (insertEntry name atom entries).map (fun entry => (entry.1, entry.2.bare f)) =
        insertEntry name (atom.bare f)
          (entries.map fun entry => (entry.1, entry.2.bare f)) := by
    intro entries
    induction entries with
    | nil => rfl
    | cons entry rest ih =>
        unfold insertEntry
        simp only [List.map_cons]
        split
        · rfl
        · split
          · rfl
          · rw [List.map_cons, ih]
  simp [insert, bare, h]

end NameMap

end

/-!
## Parts of bare atoms

An atom is made bare from the parts upwards: its parts may be exchanged before or after, and each
keeps its place.
-/

namespace Atom

section

variable {f : Option String → Option String}

theorem isFreeVar_bare (atom : Atom) :
    (atom.bare f).isFreeVar = atom.isFreeVar := by
  cases atom with
  | sequence s mark => rw [bare_sequence]; rfl
  | operator op mark => rw [bare_operator]; rfl
  | _ => rfl

theorem isBoundVar_bare (atom : Atom) :
    (atom.bare f).isBoundVar = atom.isBoundVar := by
  cases atom with
  | sequence s mark => rw [bare_sequence]; rfl
  | operator op mark => rw [bare_operator]; rfl
  | _ => rfl

theorem properties_bare (properties : Properties) :
    properties.bare f = properties.map (bare f) := by
  rcases properties with ⟨a, c, i, b, d⟩
  simp only [PropertySet.bare, propertiesBare, optionBare_eq_map, PropertySet.map]

theorem values_bare (properties : Properties) :
    (properties.bare f).values = properties.values.map (bare f) := by
  rw [properties_bare, PropertySet.values_map]

theorem parts_bare (atom : Atom) :
    (atom.bare f).parts = atom.parts.map fun part => (part.1, part.2.bare f) := by
  cases atom with
  | var name type guard index mark => simp [parts, Option.toList_map]
  | sequence s mark => simp [parts, values_bare, Sequence.bare, Function.comp_def]
  | propertySet properties mark => simp [parts, values_bare]
  | operator op mark =>
      simp [parts, values_bare, Operator.bare, Option.toList_map, Function.comp_def]
  | _ => rfl

theorem variableName?_bare (atom : Atom) : (atom.bare f).variableName? = atom.variableName? := by
  cases atom with
  | sequence s mark => rw [bare_sequence]; rfl
  | operator op mark => rw [bare_operator]; rfl
  | _ => rfl

theorem reaches_bare (atom : Atom) (role : Role) :
    (atom.bare f).reaches role = atom.reaches role := by
  cases role <;> simp only [reaches, isFreeVar_bare]

theorem freeName_bare (atom : Atom) : (atom.bare f).freeName = atom.freeName := by
  cases atom with
  | sequence s mark => rw [bare_sequence]; rfl
  | operator op mark => rw [bare_operator]; rfl
  | _ => rfl

@[simp] theorem isConstant_bare (f : Option String → Option String) (atom : Atom) :
    (bare f atom).isConstant = atom.isConstant := by
  induction atom using parts_induction with
  | step atom ih =>
      rw [Bool.eq_iff_iff, isConstant_iff, @isConstant_iff atom, freeName_bare, parts_bare,
        List.forall_mem_map]
      refine and_congr_right fun _ => forall₂_congr fun part hpart => ?_
      rw [ih part hpart]

/-- The atom with its parts as they are, but bare itself. -/
def bareAbove (f : Option String → Option String) : Atom → Atom
  | application head argument _ _ => application head argument .empty .new
  | operator op _ => operator { op with native := f op.native } .new
  | atom => atom.withMark .new

theorem bare_eq (atom : Atom) : atom.bare f = (atom.bareAbove f).mapParts fun _ => bare f := by
  cases atom with
  | var name type guard index mark => exact bare_var ..
  | sequence s mark =>
      rw [bare_sequence, Sequence.bare, properties_bare]
      rfl
  | propertySet properties mark =>
      rw [bare_propertySet, properties_bare]
      rfl
  | operator op mark =>
      rw [bare_operator, Operator.bare, properties_bare]
      rfl
  | _ => rfl

theorem parts_bareAbove (atom : Atom) : (atom.bareAbove f).parts = atom.parts := by
  cases atom <;> rfl

theorem bareAbove_mapParts (g : Role → Atom → Atom) (atom : Atom) :
    (atom.mapParts g).bareAbove f = (atom.bareAbove f).mapParts g := by
  cases atom <;> rfl

theorem bare_mapParts {g h : Role → Atom → Atom} {atom : Atom}
    (hparts : ∀ part ∈ atom.parts, (g part.1 part.2).bare f = h part.1 (part.2.bare f)) :
    (atom.mapParts g).bare f = (atom.bare f).mapParts h := by
  rw [bare_eq, bare_eq atom, bareAbove_mapParts, mapParts_mapParts, mapParts_mapParts]
  exact mapParts_congr fun part hpart => hparts part (parts_bareAbove atom ▸ hpart)

theorem bareAbove_bareAbove (g : Option String → Option String) (atom : Atom) :
    (atom.bareAbove f).bareAbove g = atom.bareAbove (g ∘ f) := by
  cases atom <;> rfl

theorem bare_bare (f g : Option String → Option String) (atom : Atom) :
    bare g (bare f atom) = bare (g ∘ f) atom := by
  induction atom using parts_induction with
  | step atom ih =>
      rw [bare_eq atom, bare_eq, bareAbove_mapParts, bareAbove_bareAbove, mapParts_mapParts,
        bare_eq atom]
      exact mapParts_congr fun part hpart => ih part (parts_bareAbove atom ▸ hpart)

end

end Atom

theorem PropertySet.bare_bare (f g : Option String → Option String) (properties : Properties) :
    (properties.bare f).bare g = properties.bare (g ∘ f) := by
  simp only [Atom.properties_bare, map_map, Function.comp_def, Atom.bare_bare]

/-!
## Atoms that agree

Equality looks at nothing but bare atoms.  Atoms are alike if they agree once they are bare, and
the same term if their native evaluations do not count either; two atoms that equality does not
tell apart are the same term unless the hash has a collision.
-/

namespace Atom

theorem beq_of_bare_eq {f : Option String → Option String} {a b : Atom}
    (h : a.bare f = b.bare f) : (a == b) = true := by
  rw [beq_iff]
  constructor
  · rw [← depth_bare f a, h, depth_bare]
  · rw [← fingerprint_bare f a, h, fingerprint_bare]

theorem beq_congr {f : Option String → Option String} {a a' b b' : Atom}
    (ha : a.bare f = a'.bare f) (hb : b.bare f = b'.bare f) : (a == b) = (a' == b') := by
  rw [Bool.eq_iff_iff, beq_iff, beq_iff, ← depth_bare f a, ← depth_bare f b,
    ← fingerprint_bare f a, ← fingerprint_bare f b, ha, hb]
  simp

theorem beq_refl (a : Atom) : (a == a) = true := beq_of_bare_eq (f := id) rfl

theorem beq_symm {a b : Atom} (h : (a == b) = true) : (b == a) = true := by
  rw [beq_iff] at h ⊢
  exact ⟨h.1.symm, h.2.symm⟩

theorem beq_trans {a b c : Atom} (hab : (a == b) = true) (hbc : (b == c) = true) :
    (a == c) = true := by
  rw [beq_iff] at hab hbc ⊢
  exact ⟨hab.1.trans hbc.1, hab.2.trans hbc.2⟩

/-- Two atoms are the same once they are bare. -/
def Like (f : Option String → Option String) (a b : Atom) : Prop := a.bare f = b.bare f

namespace Like

variable {f : Option String → Option String} {a b c atom : Atom}

theorem refl (a : Atom) : Like f a a := rfl

theorem symm (h : Like f a b) : Like f b a := Eq.symm h

theorem trans (hab : Like f a b) (hbc : Like f b c) : Like f a c := Eq.trans hab hbc

theorem beq (h : Like f a b) : (a == b) = true := beq_of_bare_eq h

theorem depth (h : Like f a b) : a.depth = b.depth := ((beq_iff a b).mp h.beq).1

theorem isConstant (h : Like f a b) : a.isConstant = b.isConstant := by
  rw [← isConstant_bare f a, h, isConstant_bare]

theorem isStructured (h : Like f a b) : a.isStructured = b.isStructured := by
  rw [← isStructured_bare f a, h, isStructured_bare]

theorem isAny (h : Like f a b) : a.isAny = b.isAny := by
  rw [← isAny_bare f a, h, isAny_bare]

theorem bool? (h : Like f a b) : a.bool? = b.bool? := by
  rw [← bool?_bare f a, h, bool?_bare]

theorem int? (h : Like f a b) : a.int? = b.int? := by
  rw [← int?_bare f a, h, int?_bare]

/-!
### Parts of like atoms
-/

theorem typeUniverse {mark : Mark} (h : Like f (.typeUniverse mark) atom) :
    ∃ mark', atom = .typeUniverse mark' := by
  cases atom with
  | typeUniverse mark' => exact ⟨mark', rfl⟩
  | _ => simp [Like, bare] at h

theorem root {name : String} {mark : Mark} (h : Like f (.root name mark) atom) :
    ∃ mark', atom = .root name mark' := by
  cases atom with
  | root name' mark' =>
      rw [Like, bare_root, bare_root] at h
      injection h with hname
      exact ⟨mark', by rw [hname]⟩
  | _ => simp [Like, bare] at h

theorem literal {value : Literal} {type : Atom} {mark : Mark}
    (h : Like f (.literal value type mark) atom) :
    ∃ type' mark', atom = .literal value type' mark' ∧ Like f type type' := by
  cases atom with
  | literal value' type' mark' =>
      rw [Like, bare_literal, bare_literal] at h
      injection h with hvalue htype
      exact ⟨type', mark', by rw [hvalue], htype⟩
  | _ => simp [Like, bare] at h

theorem var {name : String} {type : Atom} {guard : Option Atom} {index : UInt64} {mark : Mark}
    (h : Like f (.var name type guard index mark) atom) :
    ∃ type' guard' mark', atom = .var name type' guard' index mark' ∧ Like f type type' ∧
      guard.map (bare f) = guard'.map (bare f) := by
  cases atom with
  | var name' type' guard' index' mark' =>
      rw [Like, bare_var, bare_var] at h
      injection h with hname htype hguard hindex
      exact ⟨type', guard', mark', by rw [hname, hindex], htype, hguard⟩
  | _ => simp [Like, bare] at h

theorem lambda {parameter body : Atom} {mark : Mark}
    (h : Like f (.lambda parameter body mark) atom) :
    ∃ parameter' body' mark', atom = .lambda parameter' body' mark' ∧
      Like f parameter parameter' ∧ Like f body body' := by
  cases atom with
  | lambda parameter' body' mark' =>
      rw [Like, bare_lambda, bare_lambda] at h
      injection h with hparameter hbody
      exact ⟨parameter', body', mark', rfl, hparameter, hbody⟩
  | _ => simp [Like, bare] at h

theorem sequence {s : Sequence Atom} {mark : Mark} (h : Like f (.sequence s mark) atom) :
    ∃ s' mark', atom = .sequence s' mark' ∧ s.bare f = s'.bare f := by
  cases atom with
  | sequence s' mark' =>
      rw [Like, bare_sequence, bare_sequence] at h
      injection h with hs
      exact ⟨s', mark', rfl, hs⟩
  | _ => simp [Like, bare] at h

theorem propertySet {properties : Properties} {mark : Mark}
    (h : Like f (.propertySet properties mark) atom) :
    ∃ properties' mark', atom = .propertySet properties' mark' ∧
      properties.bare f = properties'.bare f := by
  cases atom with
  | propertySet properties' mark' =>
      rw [Like, bare_propertySet, bare_propertySet] at h
      injection h with hproperties
      exact ⟨properties', mark', rfl, hproperties⟩
  | _ => simp [Like, bare] at h

theorem operator {op : Operator Atom} {mark : Mark} (h : Like f (.operator op mark) atom) :
    ∃ op' mark', atom = .operator op' mark' ∧ op.bare f = op'.bare f := by
  cases atom with
  | operator op' mark' =>
      rw [Like, bare_operator, bare_operator] at h
      injection h with hop
      exact ⟨op', mark', rfl, hop⟩
  | _ => simp [Like, bare] at h

theorem application {head argument : Atom} {bound : Bindings} {mark : Mark}
    (h : Like f (.application head argument bound mark) atom) :
    ∃ head' argument' bound' mark', atom = .application head' argument' bound' mark' ∧
      Like f head head' ∧ Like f argument argument' := by
  cases atom with
  | application head' argument' bound' mark' =>
      rw [Like, bare_application, bare_application] at h
      injection h with hhead hargument
      exact ⟨head', argument', bound', mark', rfl, hhead, hargument⟩
  | _ => simp [Like, bare] at h

end Like

theorem forall₂_like_iff {f : Option String → Option String} {list other : List Atom} :
    List.Forall₂ (Like f) list other ↔ list.map (bare f) = other.map (bare f) := by
  have hequal : List.Forall₂ (· = ·) (list.map (bare f)) (other.map (bare f)) ↔
      list.map (bare f) = other.map (bare f) := by
    rw [List.forall₂_eq_eq_eq]
  rw [← hequal, List.forall₂_map_left_iff, List.forall₂_map_right_iff]
  rfl

/-- Two atoms are the same term, marks and stored parameters aside. -/
def Alike (a b : Atom) : Prop := Like id a b

/-- Two atoms are the same term, native evaluations aside as well. -/
def SameTerm (a b : Atom) : Prop := Like (fun _ => none) a b

theorem sameTerm_mapParts {g : Role → Atom → Atom} {atom : Atom}
    (hparts : ∀ part ∈ atom.parts, SameTerm (g part.1 part.2) part.2) :
    SameTerm (atom.mapParts g) atom :=
  (bare_mapParts hparts).trans (mapParts_id _)

/-- Among some atoms the hash has no collision: those with one fingerprint are one term. -/
def NoCollision (among : Atom → Prop) : Prop :=
  ∀ a b, among a → among b → a.fingerprint = b.fingerprint → SameTerm a b

theorem NoCollision.sameTerm {among : Atom → Prop} (h : NoCollision among) {a b : Atom}
    (ha : among a) (hb : among b) (hbeq : (a == b) = true) : SameTerm a b :=
  h a b ha hb ((beq_iff a b).mp hbeq).2

end Atom

end Equational
