import Equational.Proofs.Building
import Equational.Proofs.Restoration
import Equational.Proofs.Substitution

/-!
# What rewriting touches

Rewriting looks for names in elements and laws, in heads and arguments, in the
bodies of lambdas, and in the types and guards of pattern variables; a variable
of a lambda is looked for where it occurs, not where it is introduced.  If
nothing is bound to the names there, an atom is given back as it is, and nothing
is applied.  Otherwise it is changed.

Rewriting passes over an atom that is constant and shows no variable of a
lambda.  That is right as long as the parameter of each lambda has an index, so
that a lambda is not passed over because of its body alone.
-/

namespace Equational

open Evaluation

/-!
## The names that rewriting looks for
-/

def NameMap.Misses (binds : Bindings) (names : List String) : Prop :=
  ∀ name ∈ names, binds.find? name = none

namespace Atom

def reachableNames : Atom → List String :=
  gather reaches fun
    | var name .. => [name]
    | _ => []

theorem reachableNames_var (name : String) (type : Atom) (guard : Option Atom) (index : UInt64)
    (mark : Mark) : (var name type guard index mark).reachableNames = name ::
      if index = 0 then type.reachableNames ++ guard.toList.flatMap reachableNames else [] := by
  rw [reachableNames, gather_eq]
  by_cases hindex : index = 0 <;>
    simp [parts, reaches, isFreeVar, hindex, List.filter_map, List.flatMap_map, Function.comp_def]

theorem reachableNames_lambda (parameter body : Atom) (mark : Mark) :
    (lambda parameter body mark).reachableNames = body.reachableNames := by
  rw [reachableNames, gather_eq]
  simp [parts, reaches, Role.isShown]

theorem reachableNames_sequence (s : Sequence Atom) (mark : Mark) :
    (sequence s mark).reachableNames =
      s.properties.values.flatMap reachableNames ++ s.elements.flatMap reachableNames := by
  rw [reachableNames, gather_eq]
  simp [parts, reaches, Role.isShown, List.filter_map, List.flatMap_map, Function.comp_def]

theorem reachableNames_operator (op : Operator Atom) (mark : Mark) :
    (operator op mark).reachableNames = [] := by
  rw [reachableNames, gather_eq]
  simp [parts, reaches, Role.isShown, List.filter_map, Function.comp_def]

theorem reachableNames_propertySet (properties : Properties) (mark : Mark) :
    (propertySet properties mark).reachableNames = properties.values.flatMap reachableNames := by
  rw [reachableNames, gather_eq]
  simp [parts, reaches, Role.isShown, List.filter_map, List.flatMap_map, Function.comp_def]

theorem reachableNames_application (head argument : Atom) (bound : Bindings) (mark : Mark) :
    (application head argument bound mark).reachableNames =
      head.reachableNames ++ argument.reachableNames := by
  rw [reachableNames, gather_eq]
  simp [parts, reaches, Role.isShown]

end Atom

namespace NameMap

variable {binds : Bindings} {name : String} {names more : List String}

instance (binds : Bindings) (names : List String) : Decidable (binds.Misses names) :=
  inferInstanceAs (Decidable (∀ name ∈ names, binds.find? name = none))

theorem misses_nil : binds.Misses [] := List.forall_mem_nil _

theorem misses_cons : binds.Misses (name :: names) ↔ binds.find? name = none ∧ binds.Misses names :=
  List.forall_mem_cons

theorem misses_append : binds.Misses (names ++ more) ↔ binds.Misses names ∧ binds.Misses more :=
  List.forall_mem_append

theorem misses_of_isEmpty (h : binds.isEmpty = true) (names : List String) :
    binds.Misses names := by
  intro name _
  rw [isEmpty, List.isEmpty_iff] at h
  rw [find?, h]
  rfl

end NameMap

namespace Atom

open NameMap

/-!
## Where nothing is bound
-/

section

variable {apply : Place → Atom → Atom → Evaluation Atom} {binds : Bindings}

mutual

theorem rewriteWith_of_misses : ∀ atom : Atom, binds.Misses atom.reachableNames → ∀ place,
    rewriteWith apply binds place atom = Rewritten.same atom
  | typeUniverse mark => fun _ place => by rw [rewriteWith]
  | root name mark => fun _ place => by rw [rewriteWith]
  | literal value type mark => fun _ place => by rw [rewriteWith]
  | operator op mark => fun _ place => by rw [rewriteWith]
  | var name type guard index mark => fun h place => by
      rw [reachableNames_var, misses_cons] at h
      rw [rewriteWith, h.1]
      split
      · rfl
      · simp only
        split
        · rfl
        · rename_i hindex
          have hindex : index = 0 := by simpa using hindex
          rw [if_pos hindex, misses_append] at h
          rw [rewriteWith_of_misses type h.2.1, rewriteOption_of_misses guard h.2.2]
          rfl
  | lambda parameter body mark => fun h place => by
      rw [reachableNames_lambda] at h
      rw [rewriteWith, rewriteWith_of_misses body h]
      split
      · rfl
      · rfl
  | sequence ⟨properties, elements⟩ mark => fun h place => by
      rw [reachableNames_sequence, misses_append] at h
      rw [rewriteWith, rewriteSequence, rewriteProperties_of_misses properties h.1,
        rewriteList_of_misses elements h.2]
      split
      · rfl
      · rfl
  | propertySet properties mark => fun h place => by
      rw [reachableNames_propertySet] at h
      rw [rewriteWith, rewriteProperties_of_misses properties h]
      rfl
  | application head argument bound mark => fun h place => by
      rw [reachableNames_application, misses_append] at h
      rw [rewriteWith, rewriteWith_of_misses head h.1, rewriteWith_of_misses argument h.2]
      split
      · rfl
      · rfl

theorem rewriteList_of_misses : ∀ list : List Atom, binds.Misses (list.flatMap reachableNames) →
    ∀ place, rewriteList apply binds place list = Rewritten.same list
  | [] => fun _ place => by rw [rewriteList]
  | atom :: rest => fun h place => by
      rw [List.flatMap_cons, misses_append] at h
      rw [rewriteList, rewriteWith_of_misses atom h.1, rewriteList_of_misses rest h.2]
      rfl

theorem rewriteOption_of_misses : ∀ value : Option Atom,
    binds.Misses (value.toList.flatMap reachableNames) →
    ∀ place, rewriteOption apply binds place value = Rewritten.same value
  | none => fun _ place => by rw [rewriteOption]
  | some atom => fun h place => by
      rw [Option.toList_some, List.flatMap_singleton] at h
      rw [rewriteOption, rewriteWith_of_misses atom h]
      rfl

theorem rewriteProperties_of_misses : ∀ properties : PropertySet Atom,
    binds.Misses (properties.values.flatMap reachableNames) →
    ∀ place, rewriteProperties apply binds place properties = Rewritten.same properties
  | ⟨a, c, i, b, d⟩ => fun h place => by
      simp only [PropertySet.values, List.flatMap_append, misses_append] at h
      rw [rewriteProperties, rewriteOption_of_misses a h.1, rewriteOption_of_misses c h.2.1,
        rewriteOption_of_misses i h.2.2.1, rewriteOption_of_misses b h.2.2.2.1,
        rewriteOption_of_misses d h.2.2.2.2]
      split
      · rfl
      · rfl

end

end

/-!
## What is passed over

Only a lambda has another index than the parts that it shows.  So in a constant that shows no
variable of a lambda, there is nothing to look for.
-/

/-- The parameter of a lambda is a bound variable, as it is in every atom that is built through the
checks. -/
def BindsParameter : Atom → Prop
  | lambda parameter _ _ => parameter.isBoundVar = true
  | _ => True

theorem Built.bindsParameter {atom : Atom} (h : atom.Built) : atom.Everywhere BindsParameter := by
  refine everywhere_imp (fun part hpart => ?_) atom h
  cases part with
  | lambda parameter body mark => exact hpart
  | _ => trivial

theorem bindingIndex_of_mem_parts {atom : Atom} (h : atom.Everywhere BindsParameter)
    (hindex : atom.bindingIndex = 0) :
    ∀ part ∈ atom.parts, part.1.isShown = true → part.2.bindingIndex = 0 := by
  cases atom with
  | lambda parameter body mark =>
      have hparameter : parameter.isBoundVar = true := h.1
      cases parameter with
      | var name type guard index parameterMark =>
          rw [isBoundVar, show index = 0 from hindex] at hparameter
          cases hparameter
      | _ => cases hparameter
  | sequence s mark =>
      rcases s with ⟨properties, elements⟩
      rcases eq_zero_of_max hindex with ⟨hlist, hproperties⟩
      simp only [parts, List.forall_mem_append, List.forall_mem_map]
      exact ⟨fun value hvalue _ => bindingIndex_of_mem_values hproperties hvalue,
        fun atom hatom _ => bindingIndex_of_mem hlist hatom⟩
  | propertySet properties mark =>
      simp only [parts, List.forall_mem_map]
      exact fun value hvalue _ => bindingIndex_of_mem_values hindex hvalue
  | application head argument bound mark =>
      rcases eq_zero_of_max hindex with ⟨hhead, hargument⟩
      exact List.forall_mem_cons.mpr
        ⟨fun _ => hhead, List.forall_mem_singleton.mpr fun _ => hargument⟩
  | _ => simp [parts, Role.isShown, or_imp, forall_and]

theorem reachableNames_eq_nil (atom : Atom) (h : atom.Everywhere BindsParameter)
    (hconstant : atom.isConstant = true) (hindex : atom.bindingIndex = 0) :
    atom.reachableNames = [] := by
  induction atom using parts_induction with
  | step atom ih =>
      have hparts := bindingIndex_of_mem_parts h hindex
      rw [everywhere_iff] at h
      rw [isConstant_iff] at hconstant
      have hnoVar : ∀ name type guard index mark, atom ≠ var name type guard index mark := by
        rintro name type guard index mark rfl
        rw [freeName, show index = 0 from hindex] at hconstant
        cases hconstant.1
      refine gather_eq_nil_iff.mpr ⟨?_, fun part hpart hreaches => ?_⟩
      · cases atom with
        | var name type guard index mark => exact absurd rfl (hnoVar name type guard index mark)
        | _ => rfl
      · have hshown : part.1.isShown = true := by
          cases atom with
          | var name type guard index mark => exact absurd rfl (hnoVar name type guard index mark)
          | _ => 
            revert hreaches
            cases part.1 <;> exact id
        exact ih part hpart (h.2 part hpart) (hconstant.2 part hpart hshown)
          (hparts part hpart hshown)

theorem misses_of_isInert {binds : Bindings} {atom : Atom} (h : atom.isInert binds = true)
    (hparameters : atom.Everywhere BindsParameter) : binds.Misses atom.reachableNames := by
  rw [isInert, Bool.or_eq_true, Bool.and_eq_true, beq_iff_eq] at h
  rcases h with hempty | ⟨hconstant, hindex⟩
  · exact misses_of_isEmpty hempty _
  · rw [reachableNames_eq_nil atom hparameters hconstant hindex]
    exact misses_nil

/-!
## Where something is bound

A value is changed if one of its parts is, and a part is changed if it is a variable that is
bound.
-/

def Tells {α : Type} (binds : Bindings) (names : List String) (new : Rewritten α) : Prop :=
  new.changed = false → binds.Misses names

section

variable {α : Type} {binds : Bindings} {names more : List String}

theorem tells_same (h : binds.Misses names) (old : α) :
    (Rewritten.same old).Yields (Tells binds names) :=
  yields_value fun _ => h

theorem tells_new (new : α) :
    (value ⟨new, true⟩ : Evaluation (Rewritten α)).Yields (Tells binds names) :=
  yields_value fun hchanged => by cases hchanged

theorem tells_rebuilt {changed : Bool} (h : changed = false → binds.Misses names) (old new : α) :
    (if changed then pure ⟨new, true⟩ else Rewritten.same old).Yields (Tells binds names) := by
  cases changed with
  | true => exact tells_new new
  | false => exact tells_same (h rfl) old

end

section

variable {apply : Place → Atom → Atom → Evaluation Atom} {binds : Bindings}

mutual

theorem tells_rewriteWith : ∀ atom : Atom, atom.Everywhere BindsParameter → ∀ place,
    (rewriteWith apply binds place atom).Yields (Tells binds atom.reachableNames)
  | typeUniverse mark => fun _ place => by
      rw [rewriteWith]
      exact tells_same misses_nil _
  | root name mark => fun _ place => by
      rw [rewriteWith]
      exact tells_same misses_nil _
  | literal value type mark => fun _ place => by
      rw [rewriteWith]
      exact tells_same misses_nil _
  | operator op mark => fun _ place => by
      rw [rewriteWith, reachableNames_operator]
      exact tells_same misses_nil _
  | var name type guard index mark => fun h place => by
      rw [rewriteWith]
      split
      · rename_i hinert
        exact tells_same (misses_of_isInert hinert h) _
      · split
        · exact tells_new _
        · rename_i hunbound
          split
          · rename_i hindex
            rw [reachableNames_var, if_neg (bne_iff_ne.mp hindex)]
            exact tells_same (misses_cons.mpr ⟨hunbound, misses_nil⟩) _
          · rename_i hindex
            have hindex : index = 0 := by simpa using hindex
            rw [reachableNames_var, if_pos hindex]
            refine (tells_rewriteWith type h.2.1 _).bind fun newType htype => ?_
            refine (tells_rewriteOption guard h.2.2 _).bind fun newGuard hguard => ?_
            refine tells_rebuilt (fun hchanged => ?_) _ _
            rw [Bool.or_eq_false_iff] at hchanged
            exact misses_cons.mpr
              ⟨hunbound, misses_append.mpr ⟨htype hchanged.1, hguard hchanged.2⟩⟩
  | lambda parameter body mark => fun h place => by
      rw [rewriteWith]
      split
      · rename_i hinert
        exact tells_same (misses_of_isInert hinert h) _
      · rw [reachableNames_lambda]
        refine (tells_rewriteWith body h.2.2 _).bind fun newBody hbody => ?_
        exact tells_rebuilt hbody _ _
  | sequence ⟨properties, elements⟩ mark => fun h place => by
      rw [rewriteWith]
      refine (tells_rewriteSequence ⟨properties, elements⟩ h _).bind fun new hnew => ?_
      exact tells_rebuilt hnew _ _
  | propertySet properties mark => fun h place => by
      rw [rewriteWith, reachableNames_propertySet]
      refine (tells_rewriteProperties properties h.2 _).bind fun new hnew => ?_
      exact tells_rebuilt hnew _ _
  | application head argument bound mark => fun h place => by
      rw [rewriteWith]
      split
      · rename_i hinert
        exact tells_same (misses_of_isInert hinert h) _
      · rw [reachableNames_application]
        refine (tells_rewriteWith head h.2.1 _).bind fun newHead hhead => ?_
        refine (tells_rewriteWith argument h.2.2 _).bind fun newArgument hargument => ?_
        split
        · exact Yields.bind (p := fun _ => True) (fun _ _ => trivial) fun applied _ =>
            tells_new applied
        · rename_i hchanged
          rw [Bool.not_eq_true, Bool.or_eq_false_iff] at hchanged
          exact tells_same (misses_append.mpr ⟨hhead hchanged.1, hargument hchanged.2⟩) _

theorem tells_rewriteSequence : ∀ s : Sequence Atom,
    (sequence s .new).Everywhere BindsParameter → ∀ place,
    (rewriteSequence apply binds place s).Yields (Tells binds (sequence s .new).reachableNames)
  | ⟨properties, elements⟩ => fun h place => by
      rw [rewriteSequence]
      split
      · rename_i hinert
        exact tells_same (misses_of_isInert hinert h) _
      · rw [reachableNames_sequence]
        refine (tells_rewriteProperties properties h.2.1 _).bind fun newProperties hproperties => ?_
        refine (tells_rewriteList elements h.2.2 _).bind fun newElements helements => ?_
        refine tells_rebuilt (fun hchanged => ?_) _ _
        rw [Bool.or_eq_false_iff] at hchanged
        exact misses_append.mpr ⟨hproperties hchanged.1, helements hchanged.2⟩

theorem tells_rewriteList : ∀ list : List Atom, ListEverywhere BindsParameter list → ∀ place,
    (rewriteList apply binds place list).Yields (Tells binds (list.flatMap reachableNames))
  | [] => fun _ place => by
      rw [rewriteList]
      exact tells_same misses_nil _
  | atom :: rest => fun h place => by
      rw [rewriteList]
      refine (tells_rewriteWith atom h.1 _).bind fun newAtom hatom => ?_
      refine (tells_rewriteList rest h.2 _).bind fun newRest hrest => ?_
      refine yields_value fun hchanged => ?_
      rw [Bool.or_eq_false_iff] at hchanged
      exact misses_append.mpr ⟨hatom hchanged.1, hrest hchanged.2⟩

theorem tells_rewriteOption : ∀ value : Option Atom, OptionEverywhere BindsParameter value →
    ∀ place, (rewriteOption apply binds place value).Yields
      (Tells binds (value.toList.flatMap reachableNames))
  | none => fun _ place => by
      rw [rewriteOption]
      exact tells_same misses_nil _
  | some atom => fun h place => by
      rw [rewriteOption, Option.toList_some, List.flatMap_singleton]
      exact (tells_rewriteWith atom h _).bind fun newAtom hatom => yields_value hatom

theorem tells_rewriteProperties : ∀ properties : PropertySet Atom,
    PropertiesEverywhere BindsParameter properties → ∀ place,
    (rewriteProperties apply binds place properties).Yields
      (Tells binds (properties.values.flatMap reachableNames))
  | ⟨a, c, i, b, d⟩ => fun h place => by
      rw [rewriteProperties]
      split
      · rename_i hinert
        have hmisses := misses_of_isInert hinert ⟨trivial, h⟩
        rw [reachableNames_propertySet] at hmisses
        exact tells_same hmisses _
      · refine (tells_rewriteOption a h.1 _).bind fun newA ha => ?_
        refine (tells_rewriteOption c h.2.1 _).bind fun newC hc => ?_
        refine (tells_rewriteOption i h.2.2.1 _).bind fun newI hi => ?_
        refine (tells_rewriteOption b h.2.2.2.1 _).bind fun newB hb => ?_
        refine (tells_rewriteOption d h.2.2.2.2 _).bind fun newD hd => ?_
        split
        · exact Yields.bind (p := fun _ => True) (fun _ _ => trivial) fun legal _ =>
            tells_new legal
        · rename_i hchanged
          simp only [Bool.not_eq_true, Bool.or_eq_false_iff] at hchanged
          refine tells_same ?_ _
          simp only [PropertySet.values, List.flatMap_append, misses_append]
          exact ⟨ha hchanged.1.1.1.1, hc hchanged.1.1.1.2, hi hchanged.1.1.2, hb hchanged.1.2,
            hd hchanged.2⟩

end

/-- Rewriting touches what is bound.  An atom in which it comes across no bound name is given back,
and nothing is applied; if it comes across one, and the parameters of all lambdas are bound
variables, then it has changed the atom, unless it fails. -/
theorem rewriteWith_touches (apply : Place → Atom → Atom → Evaluation Atom) (binds : Bindings)
    (place : Place) (atom : Atom) :
    (binds.Misses atom.reachableNames → rewriteWith apply binds place atom = Rewritten.same atom) ∧
      (atom.Everywhere BindsParameter →
        ∀ new, (rewriteWith apply binds place atom).result = .ok new →
        ¬binds.Misses atom.reachableNames → new.changed = true) := by
  refine ⟨fun h => rewriteWith_of_misses atom h place, fun hparameters new hnew hbound => ?_⟩
  cases hchanged : new.changed with
  | true => rfl
  | false => exact absurd (tells_rewriteWith atom hparameters place new hnew hchanged) hbound

end

def openLambda : Atom :=
  .lambda (.var ":1" .any none 1 .new)
    (.sequence (.plain [.free "x" .any, .var ":1" .any none 1 .new]) .new) .new

theorem built_openLambda : openLambda.Built := by decide

theorem rewriteWith_touches_openLambda :
    Engine.idle.rewrite (NameMap.empty.insert "y" (.integer 5)) openLambda =
        Rewritten.same openLambda ∧
      ∃ new, (Engine.idle.rewrite (NameMap.empty.insert "x" (.integer 5)) openLambda).result =
        .ok new ∧ new.changed = true := by
  have htouches := fun name : String =>
    rewriteWith_touches Engine.idle.applyAt (NameMap.empty.insert name (.integer 5)) [] openLambda
  refine ⟨(htouches "y").1 (by decide), ?_⟩
  cases hnew : (Engine.idle.rewrite (NameMap.empty.insert "x" (.integer 5)) openLambda).result with
  | error e =>
      have hok : (Engine.idle.rewrite (NameMap.empty.insert "x" (.integer 5))
        openLambda).result.isOk = true := by decide +kernel
      rw [hnew] at hok
      cases hok
  | ok new =>
      exact ⟨new, rfl, (htouches "x").2 built_openLambda.bindsParameter new hnew (by decide)⟩

/-- Where the indices are exhausted, the parameter of a lambda has none, and the lambda is passed
over. -/
theorem rewriteWith_not_touched :
    (Engine.idle.lambda (.free "x" .any) Cbor.greatestVariable).result = .ok Cbor.exhaustedLambda ∧
      ¬(NameMap.empty.insert ":18446744073709551615" (.integer 5)).Misses
        Cbor.exhaustedLambda.reachableNames ∧
      (Engine.idle.rewrite (NameMap.empty.insert ":18446744073709551615" (.integer 5))
        Cbor.exhaustedLambda).result = .ok ⟨Cbor.exhaustedLambda, false⟩ := by
  exact ⟨rfl, by decide, rfl⟩

end Atom

end Equational
