import Equational.Proofs.Flattening
import Equational.Proofs.Irrelevance
import Equational.Proofs.StandingApplications

/-!
# Binding a variable

An abstraction puts a new bound variable in the place of a pattern variable.  Where the new name is
new, and the old one stands for that pattern variable only, this can be undone, so what was equal
stays equal and what was different stays different.  Elsewhere, though, a bound variable counts as a
constant.  So it is spelled out what else has to be the case so that sequences and property sets
stay legal and normal, and so that operators take the new arguments like the old ones.
-/

namespace Equational

open Atom

namespace Atom

/-!
## Putting an atom in the place of a variable

Where rewriting does not look for variables nothing changes, and neither does it matter whether
the atoms are made bare before or after.
-/

/-- The atom with another in the place of a variable, wherever rewriting looks for variables, and
without building anything anew. -/
def substituted (name : String) (value : Atom) : Atom → Atom :=
  rebuild reaches fun atom => if atom.variableName? = some name then value else atom

section

variable {f : Option String → Option String} {name : String} {value atom : Atom} {mark : Mark}

theorem substituted_eq : substituted name value atom =
    if atom.variableName? = some name then value else atom.mapParts fun role part =>
      bif atom.reaches role then substituted name value part else part := by
  rw [substituted, rebuild_eq, variableName?_mapParts]

theorem substituted_of_name (h : atom.variableName? = some name) :
    substituted name value atom = value := by
  rw [substituted_eq, if_pos h]

theorem substituted_of_ne (h : atom.variableName? ≠ some name) :
    substituted name value atom = atom.mapParts fun role part =>
      bif atom.reaches role then substituted name value part else part := by
  rw [substituted_eq, if_neg h]

theorem substituted_of_unreached (hname : atom.variableName? ≠ some name)
    (h : ∀ part ∈ atom.parts, atom.reaches part.1 = false) :
      substituted name value atom = atom := by
  rw [substituted_of_ne hname]
  refine (mapParts_congr fun part hpart => ?_).trans (mapParts_id atom)
  rw [h part hpart]
  rfl

theorem substituted_freeVar {other : String} (hname : other ≠ name) (type : Atom)
    (guard : Option Atom) : substituted name value (var other type guard 0 mark) =
      var other (substituted name value type) (guard.map (substituted name value)) 0 mark :=
  substituted_of_ne fun heq => hname (Option.some.inj heq)

theorem substituted_operator (op : Operator Atom) :
    substituted name value (operator op mark) = operator op mark := by
  refine substituted_of_unreached nofun ?_
  simp [parts, reaches, Role.isShown, or_imp, forall_and]

theorem substituted_application (head argument : Atom) (bound : Bindings) :
    substituted name value (application head argument bound mark) =
      application (substituted name value head) (substituted name value argument) bound mark :=
  substituted_of_ne nofun

theorem substituted_sequence (s : Sequence Atom) : substituted name value (sequence s mark) =
    sequence ⟨s.properties.map (substituted name value),
      s.elements.map (substituted name value)⟩ mark :=
  substituted_of_ne nofun

theorem substituted_propertySet (properties : Properties) :
    substituted name value (propertySet properties mark) =
      propertySet (properties.map (substituted name value)) mark :=
  substituted_of_ne nofun

theorem bare_substituted (atom : Atom) : (substituted name value atom).bare f =
    substituted name (value.bare f) (atom.bare f) := by
  induction atom using parts_induction with
  | step atom ih =>
      rw [substituted_eq, substituted_eq, variableName?_bare]
      split
      · rfl
      · refine bare_mapParts fun part hpart => ?_
        rw [reaches_bare]
        cases atom.reaches part.1 with
        | true => exact ih part hpart
        | false => rfl

theorem bare_map_substituted (properties : Properties) :
    (properties.map (substituted name value)).bare f =
      (properties.bare f).map (substituted name (value.bare f)) := by
  simp only [properties_bare, PropertySet.map_map, Function.comp_def, bare_substituted]

theorem SameTerm.substituted {a b v w : Atom} (hvalue : SameTerm v w) (h : SameTerm a b) :
    SameTerm (Atom.substituted name v a) (Atom.substituted name w b) := by
  rw [SameTerm, Like, bare_substituted, bare_substituted, h, hvalue]

end

/-!
## The parts that rewriting reaches
-/

/-- The atom and the parts in which rewriting looks for a variable. -/
def reachedParts (name : String) : Atom → List Atom :=
  gather (fun atom role => atom.variableName? != some name && atom.reaches role) fun atom => [atom]

/-- A condition holds for an atom and for the parts in which rewriting looks for a variable. -/
def Reached (name : String) (p : Atom → Prop) (atom : Atom) : Prop :=
  ∀ part ∈ atom.reachedParts name, p part

section

variable {name : String} {p : Atom → Prop} {atom : Atom} {mark : Mark}

theorem reached_iff : atom.Reached name p ↔ p atom ∧ (atom.variableName? ≠ some name →
    ∀ part ∈ atom.parts, atom.reaches part.1 = true → part.2.Reached name p) := by
  rw [Reached, reachedParts, gather_eq, List.forall_mem_append, List.forall_mem_singleton]
  refine and_congr_right fun _ => ?_
  simp only [List.forall_mem_flatMap, List.mem_filter, Bool.and_eq_true, bne_iff_ne]
  exact ⟨fun h hname part hpart hreach => h part ⟨hpart, hname, hreach⟩,
    fun h part hpart => h hpart.2.1 part hpart.1 hpart.2.2⟩

theorem Reached.self (h : atom.Reached name p) : p atom := (reached_iff.mp h).1

theorem Reached.part (h : atom.Reached name p) (hname : atom.variableName? ≠ some name)
    {part : Role × Atom} (hpart : part ∈ atom.parts) (hreach : atom.reaches part.1 = true) :
    part.2.Reached name p :=
  (reached_iff.mp h).2 hname part hpart hreach

theorem reached_freeVar {other : String} {type : Atom} {guard : Option Atom} :
    (var other type guard 0 mark).Reached name p ↔ p (var other type guard 0 mark) ∧
      (other ≠ name → type.Reached name p ∧ ∀ atom ∈ guard, atom.Reached name p) := by
  rw [reached_iff]
  simp [variableName?, parts, reaches, isFreeVar]

theorem reached_lambda {parameter body : Atom} : (lambda parameter body mark).Reached name p ↔
    p (lambda parameter body mark) ∧ body.Reached name p := by
  rw [reached_iff]
  simp [variableName?, parts, reaches, Role.isShown]

theorem reached_sequence {s : Sequence Atom} : (sequence s mark).Reached name p ↔
    p (sequence s mark) ∧ (∀ value ∈ s.properties.values, value.Reached name p) ∧
      ∀ atom ∈ s.elements, atom.Reached name p := by
  rw [reached_iff]
  simp [variableName?, parts, reaches, Role.isShown, or_imp, forall_and]

theorem reached_propertySet {properties : Properties} :
    (propertySet properties mark).Reached name p ↔ p (propertySet properties mark) ∧
      ∀ value ∈ properties.values, value.Reached name p := by
  rw [reached_iff]
  simp [variableName?, parts, reaches, Role.isShown]

theorem reached_application {head argument : Atom} {bound : Bindings} :
    (application head argument bound mark).Reached name p ↔
      p (application head argument bound mark) ∧ head.Reached name p ∧ argument.Reached name p := by
  rw [reached_iff]
  simp [variableName?, parts, reaches, Role.isShown]

end

end Atom

def Atom.laws? : Atom → Option Properties
  | .sequence s _ => some s.properties
  | .propertySet properties _ => some properties
  | _ => none

/-!
## Abstractions

A variable becomes a variable, and every law is renamed on its own.
-/

/-- A pattern variable, and the index and the guard that it is to have as a bound variable. -/
structure Abstraction where
  name : String
  type : Atom
  guard : Option Atom
  index : UInt64
  newGuard : Option Atom

namespace Abstraction

def boundName (r : Abstraction) : String := ":" ++ Number.natText r.index.toNat

def pattern (r : Abstraction) : Atom := .var r.name r.type r.guard 0 .new

def bound (r : Abstraction) : Atom := .var r.boundName r.type r.newGuard r.index .new

/-- The atom with the bound variable in the place of the pattern variable. -/
abbrev renamed (r : Abstraction) : Atom → Atom := substituted r.name r.bound

abbrev renamedLaws (r : Abstraction) : Properties → Properties := PropertySet.map r.renamed

/-- The pattern variable does not occur in the boolean laws. -/
def SparesFlags (r : Abstraction) (properties : Properties) : Prop :=
  ∀ law, law.isBoolean = true → (r.renamedLaws properties).get law = properties.get law

/-- What makes renaming harmless at a part of an atom.  The part and what becomes of it are told
from others by equality, the new name is new, and the old one stands for nothing but the pattern
variable, which occurs neither in a law that has to be a truth value nor in what is declared by an
operator that is applied; such an application stands, and no lambda is applied. -/
structure Allows (r : Abstraction) (among : Atom → Prop) (atom : Atom) : Prop where
  self : among atom
  renamed : among (r.renamed atom)
  wellMade : WellMade atom
  fresh : atom.variableName? ≠ some r.boundName
  same : atom.variableName? = some r.name → SameTerm atom r.pattern
  laws : ∀ properties, atom.laws? = some properties → r.SparesFlags properties
  operator : ∀ op opMark argument bound mark,
    atom = .application (.operator op opMark) argument bound mark →
      op.Stands among argument ∧ r.renamedLaws op.properties = op.properties
  lambda : ∀ parameter body lambdaMark argument bound mark,
    atom ≠ .application (.lambda parameter body lambdaMark) argument bound mark

variable {r : Abstraction} {among : Atom → Prop}

theorem exists_renamed_var (name : String) (type : Atom) (guard : Option Atom) (index : UInt64)
    (mark : Mark) : ∃ name' type' guard' index' mark',
      r.renamed (.var name type guard index mark) = .var name' type' guard' index' mark' := by
  rw [renamed, substituted_eq]
  split
  · exact ⟨_, _, _, _, _, rfl⟩
  · exact ⟨_, _, _, _, _, rfl⟩

/-!
## Renaming can be undone

Putting the pattern variable back in the place of the bound one gives the old atom again, since
the new name was not in it.  So renaming keeps atoms equal, and keeps them different.
-/

/-- Putting the pattern variable back in the place of the bound one undoes the renaming. -/
theorem restored_renamed (atom : Atom) (h : atom.Reached r.name (r.Allows among)) :
    SameTerm (substituted r.boundName r.pattern (r.renamed atom)) atom := by
  induction atom using parts_induction with
  | step atom ih =>
      by_cases hname : atom.variableName? = some r.name
      · rw [renamed, substituted_of_name hname, substituted_of_name rfl]
        exact (h.self.same hname).symm
      · rw [renamed, substituted_of_ne hname, substituted_of_ne
          (variableName?_mapParts atom ▸ h.self.fresh), mapParts_mapParts]
        refine sameTerm_mapParts fun part hpart => ?_
        rw [reaches_mapParts]
        cases hreach : atom.reaches part.1 with
        | true => exact ih part hpart (h.part hname hpart hreach)
        | false => exact Like.refl _

theorem sameTerm_of_renamed {a b : Atom} (ha : a.Reached r.name (r.Allows among))
    (hb : b.Reached r.name (r.Allows among)) (h : SameTerm (r.renamed a) (r.renamed b)) :
    SameTerm a b :=
  ((restored_renamed a ha).symm.trans (SameTerm.substituted (Like.refl _) h)).trans
    (restored_renamed b hb)

theorem beq_renamed (hcollision : NoCollision among) {a b : Atom}
    (ha : a.Reached r.name (r.Allows among)) (hb : b.Reached r.name (r.Allows among)) :
    (r.renamed a == r.renamed b) = (a == b) := by
  rw [Bool.eq_iff_iff]
  constructor
  · intro h
    exact (sameTerm_of_renamed ha hb (hcollision.sameTerm ha.self.renamed hb.self.renamed h)).beq
  · intro h
    exact (SameTerm.substituted (Like.refl _) (hcollision.sameTerm ha.self.self hb.self.self h)).beq

/-!
## Constants
-/

theorem renamed_of_isConstant (atom : Atom) (h : atom.Reached r.name (r.Allows among))
    (hconstant : atom.isConstant = true) : r.renamed atom = atom := by
  induction atom using parts_induction with
  | step atom ih =>
      have hname : atom.variableName? ≠ some r.name := by
        intro hname
        rw [Like.isConstant (h.self.same hname)] at hconstant
        cases hconstant
      rw [renamed, substituted_of_ne hname]
      refine (mapParts_congr fun part hpart => ?_).trans (mapParts_id atom)
      cases hreach : atom.reaches part.1 with
      | true =>
          exact ih part hpart (h.part hname hpart hreach)
            (isConstant_of_reaches hconstant hpart hreach)
      | false => rfl

theorem renamedLaws_of_isConstant (properties : Properties)
    (h : ∀ value ∈ properties.values, value.Reached r.name (r.Allows among))
    (hconstant : propertiesConstant properties = true) : r.renamedLaws properties = properties :=
  (PropertySet.map_congr fun value hvalue => renamed_of_isConstant value (h value hvalue)
    (propertiesConstant_iff.mp hconstant value hvalue)).trans (PropertySet.map_id properties)

theorem list_renamed_of_isConstant (list : List Atom)
    (h : ∀ atom ∈ list, atom.Reached r.name (r.Allows among))
    (hconstant : listConstant list = true) : list.map r.renamed = list :=
  List.map_congr_left (fun atom hatom => renamed_of_isConstant atom (h atom hatom)
    (listConstant_iff.mp hconstant atom hatom)) |>.trans (List.map_id' list)

/-!
## Sequences and property sets

Only the absorber and the identity of a property set can change.  Renaming keeps them equal to
elements or different from them, so a normal sequence stays normal.
-/

section

variable {properties other : Properties}

theorem SparesFlags.isAssociative (h : r.SparesFlags properties) :
    (r.renamedLaws properties).isAssociative = properties.isAssociative :=
  congrArg PropertySet.holds (h .associative rfl)

theorem SparesFlags.isIdempotent (h : r.SparesFlags properties) :
    (r.renamedLaws properties).isIdempotent = properties.isIdempotent :=
  congrArg PropertySet.holds (h .idempotent rfl)

theorem SparesFlags.checked (h : r.SparesFlags properties)
    (hlegal : properties.checked = .ok properties) :
    (r.renamedLaws properties).checked = .ok (r.renamedLaws properties) := by
  have hnotBoolean : (r.renamedLaws properties).notBoolean? = properties.notBoolean? := by
    unfold PropertySet.notBoolean?
    simp only [List.findSome?_cons, List.findSome?_nil, h .associative rfl, h .commutative rfl,
      h .idempotent rfl]
  have hassociative : (r.renamedLaws properties).associative = properties.associative :=
    h .associative rfl
  have hidempotent : (r.renamedLaws properties).idempotent = properties.idempotent :=
    h .idempotent rfl
  have hisSome : ∀ law, ((r.renamedLaws properties).get law).isSome =
      (properties.get law).isSome := by
    intro law
    rw [PropertySet.get_map, Option.isSome_map]
  have hlacks : (r.renamedLaws properties).lacksAssociative? = properties.lacksAssociative? := by
    have habsorber := hisSome .absorber
    have hidentity := hisSome .identity
    simp only [PropertySet.get] at habsorber hidentity
    unfold PropertySet.lacksAssociative?
    rw [hassociative, hidempotent, habsorber, hidentity]
  rw [checked_properties_iff] at hlegal ⊢
  rwa [hnotBoolean, hlacks]

theorem beq_get_renamed (hcollision : NoCollision among)
    (hproperties : ∀ value ∈ properties.values, value.Reached r.name (r.Allows among)) {atom : Atom}
    (hatom : atom.Reached r.name (r.Allows among)) (law : Law) :
    ((r.renamedLaws properties).get law == some (r.renamed atom)) =
      (properties.get law == some atom) := by
  rw [PropertySet.get_map]
  cases hget : properties.get law with
  | none => rfl
  | some value =>
      exact beq_renamed hcollision
        (hproperties value (PropertySet.mem_values.mpr ⟨law, hget⟩)) hatom

theorem beq_of_beq_renamedLaws (hcollision : NoCollision among)
    (hproperties : ∀ value ∈ properties.values, value.Reached r.name (r.Allows among))
    (hother : ∀ value ∈ other.values, value.Reached r.name (r.Allows among))
    (h : (r.renamedLaws properties == r.renamedLaws other) = true) :
    (properties == other) = true := by
  have hlaws : ∀ law, (properties.get law == other.get law) = true := by
    intro law
    have hlaw := PropertySet.beq_get h law
    rw [PropertySet.get_map, PropertySet.get_map] at hlaw
    cases hget : properties.get law with
    | none =>
        cases hget' : other.get law with
        | none => rfl
        | some value =>
            rw [hget, hget'] at hlaw
            cases hlaw
    | some value =>
        cases hget' : other.get law with
        | none =>
            rw [hget, hget'] at hlaw
            cases hlaw
        | some value' =>
            rw [hget, hget'] at hlaw
            have hvalue := hproperties value (PropertySet.mem_values.mpr ⟨law, hget⟩)
            have hvalue' := hother value' (PropertySet.mem_values.mpr ⟨law, hget'⟩)
            exact (beq_renamed hcollision hvalue hvalue').symm.trans hlaw
  change (properties.associative == other.associative && _ && _ && _ && _) = true
  simp only [Bool.and_eq_true]
  exact ⟨⟨⟨⟨hlaws .associative, hlaws .commutative⟩, hlaws .idempotent⟩, hlaws .absorber⟩,
    hlaws .identity⟩

theorem opened_renamed (hcollision : NoCollision among)
    (hproperties : ∀ value ∈ properties.values, value.Reached r.name (r.Allows among)) {atom : Atom}
    (hatom : atom.Reached r.name (r.Allows among))
    (h : Sequence.opened properties atom = none) :
    Sequence.opened (r.renamedLaws properties) (r.renamed atom) = none := by
  unfold Sequence.opened at h ⊢
  have hidentity := beq_get_renamed hcollision hproperties hatom .identity
  simp only [PropertySet.get] at hidentity
  rw [hidentity]
  split at h
  · cases h
  · rw [if_neg ‹_›]
    rw [Option.map_eq_none_iff, Option.filter_eq_none_iff] at h ⊢
    intro s hs hequal
    cases atom with
    | sequence t mark =>
        rw [renamed, substituted_sequence] at hs
        cases hs
        have hparts := (reached_sequence.mp hatom).2.1
        exact h t rfl (beq_of_beq_renamedLaws hcollision hparts hproperties hequal)
    | var other type guard index mark =>
        rcases exists_renamed_var (r := r) other type guard index mark with ⟨_, _, _, _, _, heq⟩
        rw [heq] at hs
        cases hs
    | _ => cases hs

theorem normalize_renamed (hcollision : NoCollision among) {s : Sequence Atom} {mark : Mark}
    (h : (Atom.sequence s mark).Reached r.name (r.Allows among)) :
    Sequence.normalize (r.renamedLaws s.properties) (s.elements.map r.renamed) =
      s.elements.map r.renamed := by
  rcases reached_sequence.mp h with ⟨hself, hproperties, helements⟩
  have hflags := hself.laws s.properties rfl
  refine Sequence.normalize_map hflags.isAssociative hflags.isIdempotent ?_ ?_ ?_ hself.wellMade.2
  · exact fun a ha b hb => beq_renamed hcollision (helements a ha) (helements b hb)
  · exact fun a ha => beq_get_renamed hcollision hproperties (helements a ha) .absorber
  · exact fun a ha => opened_renamed hcollision hproperties (helements a ha)

end

/-!
## Applications of operators

An operator is applied again to the renamed arguments.  What it declares is not renamed, and
equals a renamed argument exactly if it equals the argument; so nothing is simplified that was
not, and the parameters take what they took.
-/

theorem SameTerm.isLeafType {a b : Atom} (h : SameTerm a b) : a.isLeafType = b.isLeafType := by
  have hbare : ∀ atom : Atom, (atom.bare fun _ => none).isLeafType = atom.isLeafType := by
    intro atom
    cases atom with
    | sequence s mark => rw [bare_sequence]; rfl
    | operator op mark => rw [bare_operator]; rfl
    | _ => rfl
  rw [← hbare a, h, hbare]

theorem renamed_of_isLeafType {atom : Atom} (h : atom.isLeafType = true) :
    r.renamed atom = atom := by
  cases atom with
  | typeUniverse mark => rfl
  | root name mark => rfl
  | literal value type mark => rfl
  | operator op mark => exact substituted_operator op
  | _ => cases h

theorem type_renamed (hcollision : NoCollision among) {type atom : Atom} (hamong : among type)
    (htype : type.isLeafType = true) (hatom : atom.Reached r.name (r.Allows among))
    (h : (type == atom.type) = true) : (type == (r.renamed atom).type) = true := by
  cases atom with
  | var other otherType guard index mark =>
      by_cases hname : other = r.name
      · have hvar : (Atom.var other otherType guard index mark).variableName? = some r.name :=
          congrArg some hname
        rcases Like.var (hatom.self.same hvar).symm with ⟨_, _, _, heq, hsame, -⟩
        cases heq
        rw [renamed, substituted_of_name hvar]
        exact beq_trans h (SameTerm.symm hsame).beq
      · have hvar : (Atom.var other otherType guard index mark).variableName? ≠ some r.name :=
          fun heq => hname (Option.some.inj heq)
        rw [renamed, substituted_of_ne hvar]
        change (type == bif _ then r.renamed otherType else otherType) = true
        cases hreach : (Atom.var other otherType guard index mark).reaches .type with
        | true =>
            have hpart : otherType.Reached r.name (r.Allows among) :=
              hatom.part hvar List.mem_cons_self hreach
            have hsame := hcollision.sameTerm hamong hpart.self.self h
            have hleaf := (SameTerm.isLeafType hsame).symm.trans htype
            rwa [cond_true, renamed_of_isLeafType hleaf]
        | false => exact h
  | application head argument bound mark =>
      cases head with
      | var other otherType guard index headMark =>
          rcases exists_renamed_var (r := r) other otherType guard index headMark with
            ⟨_, _, _, _, _, heq⟩
          rw [renamed] at heq ⊢
          rw [substituted_application, heq]
          exact h
      | operator op opMark =>
          rcases op with ⟨name, properties, parameters, resultType, native⟩
          cases resultType <;> exact h
      | _ => exact h
  | _ => exact h

theorem suits_renamed (hcollision : NoCollision among) {parameter argument : Atom} {name : String}
    (htyped : parameter.IsTyped name) (hparameter : among parameter) (htype : among parameter.type)
    (hargument : argument.Reached r.name (r.Allows among)) (h : Suits parameter argument) :
    Suits parameter (r.renamed argument) := by
  rcases htyped with ⟨type, mark, rfl, hleaf⟩
  refine Or.inr ?_
  rw [Bool.or_eq_true]
  have hequal : type.isAny = true ∨ (type == argument.type) = true := by
    rcases h with hself | haccepts
    · rcases Like.var (hcollision.sameTerm hparameter hargument.self.self hself) with
        ⟨otherType, _, _, rfl, hsame, -⟩
      exact Or.inr (Like.beq hsame)
    · exact Bool.or_eq_true_iff.mp haccepts
  exact hequal.imp id (type_renamed hcollision htype hleaf hargument)

theorem suits_of_sameTerm {parameter a b : Atom} (hsame : SameTerm a b) (h : Suits parameter a) :
    Suits parameter b := by
  have hself : (parameter == a) = (parameter == b) := beq_congr rfl hsame
  have htype : (parameter.type == a.type) = (parameter.type == b.type) :=
    beq_congr rfl (Like.type hsame)
  rwa [Suits, ← hself, ← htype]

theorem forall₂_suits_renamed (hcollision : NoCollision among) {parameters list others : List Atom}
    (hparameters : ∀ parameter ∈ parameters, (∃ name, parameter.IsTyped name) ∧ among parameter ∧
      among parameter.type)
    (hlist : ∀ atom ∈ list, atom.Reached r.name (r.Allows among))
    (hothers : others.map term = (list.map r.renamed).map term)
    (h : List.Forall₂ Suits parameters list) : List.Forall₂ Suits parameters others := by
  induction h generalizing others with
  | nil => 
      rw [List.map_nil, List.map_nil, List.map_eq_nil_iff] at hothers
      rw [hothers]
      exact .nil
  | @cons parameter atom parameters list hsuits _ ih =>
      rw [List.map_cons, List.map_cons, List.map_eq_cons_iff] at hothers
      rcases hothers with ⟨other, rest, rfl, hsame, hrest⟩
      rcases hparameters parameter List.mem_cons_self with ⟨⟨name, htyped⟩, hparameter, htype⟩
      refine .cons ?_ (ih (fun p hp => hparameters p (List.mem_cons_of_mem _ hp))
        (fun a ha => hlist a (List.mem_cons_of_mem _ ha)) hrest)
      exact suits_of_sameTerm (SameTerm.symm hsame)
        (suits_renamed hcollision htyped hparameter htype
        (hlist atom List.mem_cons_self) hsuits)

theorem heads_renamed (op : Operator Atom) (atom : Atom) :
    op.heads (r.renamed atom) = op.heads atom := by
  cases atom with
  | var other type guard index mark =>
      rcases exists_renamed_var (r := r) other type guard index mark with ⟨_, _, _, _, _, heq⟩
      rw [heq]
      rfl
  | application head argument bound mark =>
      cases head with
      | var other type guard index headMark =>
          rcases exists_renamed_var (r := r) other type guard index headMark with
            ⟨_, _, _, _, _, heq⟩
          rw [renamed] at heq ⊢
          rw [substituted_application, heq]
          rfl
      | operator other otherMark =>
          rw [renamed, substituted_application, substituted_operator]
          rfl
      | sequence s listMark => rcases s; rfl
      | _ => rfl
  | sequence s mark => rcases s; rfl
  | _ => rfl

section

variable {op : Operator Atom} {s : Sequence Atom} {mark : Mark}

theorem renamedLaws_sameTerm (hcarries : s.properties.SameTerm op.properties)
    (hlaws : r.renamedLaws op.properties = op.properties) :
    (r.renamedLaws s.properties).SameTerm op.properties := by
  have hsame : s.properties.bare (fun _ => none) = op.properties.bare fun _ => none := hcarries
  rw [← hlaws, PropertySet.SameTerm, renamedLaws, bare_map_substituted, bare_map_substituted,
    hsame]

/-- What an operator declares is equal to renamed arguments just as it was to the arguments, if the
list carries it and the pattern variable does not occur in it. -/
theorem beq_declared_renamed (hcollision : NoCollision among)
    (hcarries : s.properties.SameTerm op.properties)
    (hlaws : r.renamedLaws op.properties = op.properties)
    (hlist : (Atom.sequence s mark).Reached r.name (r.Allows among)) {atom : Atom}
    (hatom : atom ∈ s.elements) (law : Law) :
    (op.properties.get law == some (r.renamed atom)) = (op.properties.get law == some atom) := by
  rcases reached_sequence.mp hlist with ⟨-, hproperties, helements⟩
  have hrenamed := renamedLaws_sameTerm hcarries hlaws
  rw [← Sequence.beq_get_sameTerm hrenamed, ← Sequence.beq_get_sameTerm hcarries]
  exact beq_get_renamed hcollision hproperties (helements atom hatom) law

theorem simplify_renamed (hcollision : NoCollision among)
    (hcarries : s.properties.SameTerm op.properties)
    (hlaws : r.renamedLaws op.properties = op.properties)
    (hlist : (Atom.sequence s mark).Reached r.name (r.Allows among))
    (h : op.simplify s.elements = s.elements) :
    op.simplify (s.elements.map r.renamed) = s.elements.map r.renamed := by
  have helements := (reached_sequence.mp hlist).2.2
  rcases Operator.remaining_of_simplify_eq h with ⟨hunits, hpruned⟩
  have hheads : ∀ atom ∈ s.elements.map r.renamed, op.heads atom = false := by
    rw [List.forall_mem_map]
    exact fun atom hatom =>
      (heads_renamed op atom).trans (Operator.heads_of_simplify_eq h atom hatom)
  have hunits' : ∀ atom ∈ s.elements.map r.renamed, op.isUnit atom = false := by
    rw [List.forall_mem_map]
    intro atom hatom
    have hdeclared := beq_declared_renamed hcollision hcarries hlaws hlist hatom .identity
    have hunit := hunits atom hatom
    rw [Operator.isUnit, ← Operator.any_beq_comm] at hunit ⊢
    exact hdeclared.trans hunit
  rw [Operator.simplify_eq_remaining hheads, Operator.remaining_of_isUnit_eq_false hunits']
  exact Sequence.pruned_map rfl
    (fun a ha b hb => beq_renamed hcollision (helements a ha) (helements b hb)) hpruned

theorem simplify_eq_of_sameTerm {list other : List Atom} (h : list.map term = other.map term)
    (hother : op.simplify other = other) : op.simplify list = list := by
  have hsame := forall₂_of_map_term h
  have hheads : ∀ atom ∈ list, op.heads atom = false := by
    intro atom hatom
    rcases exists_of_mem_forall₂ hsame hatom with ⟨atom', hatom', halike⟩
    rw [Operator.heads_congr (Operator.SameTerm.refl op) halike]
    exact Operator.heads_of_simplify_eq hother atom' hatom'
  have hlength := (@Operator.forall₂_simplify _ op op rfl _ _ hsame).length_eq
  rw [hother, ← hsame.length_eq] at hlength
  have hsublist := @Operator.simplify_sublist op list
  rw [Operator.flatten_eq_flatMap,
    List.flatMap_congr fun atom hatom => Operator.pieces_of_heads_eq_false (hheads atom hatom),
    List.flatMap_singleton'] at hsublist
  exact hsublist.eq_of_length hlength

/-- Applying an operator again to an argument list in which a variable was renamed gives the
application to that list. -/
theorem result_applyWith_renamed (hcollision : NoCollision among)
    (hstands : op.Stands among (.sequence s mark))
    (hlaws : r.renamedLaws op.properties = op.properties)
    (hlist : (Atom.sequence s mark).Reached r.name (r.Allows among)) {argument : Atom}
    (hargument : SameTerm argument (r.renamed (.sequence s mark))) (natives : Natives)
    (evaluate : GuardEvaluator) :
    ∃ list bound, (op.applyWith natives evaluate argument).result =
        .ok (.application (.operator op .new) list bound .new) ∧
      SameTerm list (r.renamed (.sequence s mark)) := by
  rcases hstands with ⟨hnative, ⟨_, _, heq, hcarries⟩, _, parameters, bound, _, _, heq', hcalls,
    hparameters, hdistinct⟩
  cases heq
  cases heq'
  have helements := (reached_sequence.mp hlist).2.2
  rw [renamed, substituted_sequence] at hargument
  rcases SameTerm.sequence (SameTerm.symm hargument) with ⟨t, listMark, rfl, hproperties, hterms⟩
  have hterms' : t.elements.map term = (s.elements.map r.renamed).map term := hterms.symm
  have hcarries' : t.properties.SameTerm op.properties :=
    hproperties.symm.trans (renamedLaws_sameTerm hcarries hlaws)
  have harguments : (op.arguments (.sequence t listMark)).result = .ok t.elements := by
    rw [Operator.Plain.arguments_sequence (Operator.mismatch?_of_carries (Or.inl hcarries'))]
    rfl
  have hlength : t.elements.length = s.elements.length := by
    simpa only [List.length_map] using congrArg List.length hterms'
  have hgiven := suits_of_mem_matchAll (fun p hp => (hparameters p hp).1)
    (Operator.mem_of_bindParameters hcalls.bindParameters_eq)
  have hsuits := forall₂_suits_renamed hcollision hparameters helements hterms' hgiven
  have hsimplify : op.properties.isAssociative = true → op.simplify t.elements = t.elements :=
    fun hassociative => simplify_eq_of_sameTerm hterms'
      (simplify_renamed hcollision hcarries hlaws hlist (hcalls.simplify_eq hassociative).1)
  have habsorbs : op.properties.isAssociative = true →
      ∀ atom ∈ t.elements, op.absorbs atom = false := by
    intro hassociative other hother
    have hsame := forall₂_of_map_term hterms'
    rcases exists_of_mem_forall₂ hsame hother with ⟨new, hnew, halike⟩
    rcases List.mem_map.mp hnew with ⟨atom, hatom, rfl⟩
    have hdeclared := beq_declared_renamed hcollision hcarries hlaws hlist hatom .absorber
    have habsorbs := (hcalls.simplify_eq hassociative).2 atom hatom
    rw [Operator.absorbs_congr (Operator.SameTerm.refl op) halike]
    rw [Operator.absorbs, ← Operator.any_beq_comm] at habsorbs ⊢
    exact hdeclared.trans habsorbs
  rcases hcalls.exists_of_suits evaluate (fun p hp => (hparameters p hp).1) hdistinct harguments
    hlength hsimplify habsorbs hsuits with ⟨bound', hcalls'⟩
  have hrenamed := renamedLaws_sameTerm hcarries hlaws
  have hnormal := Sequence.normalize_of_sameTerm hrenamed.symm hterms'
    (normalize_renamed hcollision hlist)
  refine ⟨.sequence ⟨op.properties, t.elements⟩ .new, bound', ?_, ?_⟩
  · have hcall : op.call t.elements bound' = ⟨op, ⟨op.properties, t.elements⟩, bound'⟩ := by
      rw [Operator.call, Sequence.ofList, hnormal]
    rw [hcalls'.result_applyWith natives, hcall, Operator.evaluateCall, hnative]
    rfl
  · rw [renamed, substituted_sequence, SameTerm, Like, bare_sequence, bare_sequence]
    exact congrArg (Atom.sequence · .new) (congrArg₂ Sequence.mk hrenamed.symm hterms')

end

end Abstraction

end Equational
