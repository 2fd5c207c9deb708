import Equational.Proofs.BoundVariables

/-!
# Abstracting over a variable

A lambda is made by putting a new bound variable in the place of a pattern variable.
Rewriting does that, and it applies every operator above an occurrence again and checks
every property set again, although nothing but a name has changed.  Where renaming is
harmless, all of that comes to nothing: abstraction succeeds, and what it gives is the
body with the one variable in the place of the other.

Where it is not, abstraction fails: a law that has to be a truth value may be a pattern
variable, but not a bound one, and operators may look into their arguments.
-/

namespace Equational

open Atom

/-- Rewriting succeeds, and gives what a relation says to be the target, and exactly what there was
if nothing was changed. -/
def Evaluation.Becomes {α : Type} (R : α → α → Prop) (old target : α)
    (evaluation : Evaluation (Rewritten α)) : Prop :=
  ∃ new, evaluation.result = .ok new ∧ R new.value target ∧ (new.changed = false → new.value = old)

section

variable {α β : Type} {R : α → α → Prop} {S : β → β → Prop} {old target new : α}

theorem Evaluation.becomes_same (h : R old target) : (Rewritten.same old).Becomes R old target :=
  ⟨⟨old, false⟩, rfl, h, fun _ => rfl⟩

theorem Evaluation.becomes_new (h : R new target) :
    (pure ⟨new, true⟩ : Evaluation (Rewritten α)).Becomes R old target :=
  ⟨⟨new, true⟩, rfl, h, fun hchanged => by cases hchanged⟩

theorem Evaluation.becomes_rebuilt {changed : Bool} (hnew : R new target)
    (hold : changed = false → R old target) :
    (if changed then pure ⟨new, true⟩ else Rewritten.same old : Evaluation (Rewritten α)).Becomes R
      old target := by
  cases changed with
  | false => exact becomes_same (hold rfl)
  | true => exact becomes_new hnew

theorem Evaluation.Becomes.bind {old' target' : β} {first : Evaluation (Rewritten α)}
    {next : Rewritten α → Evaluation (Rewritten β)} (h : first.Becomes R old target)
    (hnext : ∀ new, R new.value target → (new.changed = false → new.value = old) →
      (next new).Becomes S old' target') : (first >>= next).Becomes S old' target' := by
  rcases h with ⟨new, hresult, hvalue, hchanged⟩
  rcases hnext new hvalue hchanged with ⟨last, hlast, hrest⟩
  exact ⟨last, (Evaluation.result_bind_of_ok hresult next).trans hlast, hrest⟩

end

/-- Whether an application of the atom is put together without anything being applied. -/
def Atom.isInactive : Atom → Bool
  | operator .. | lambda .. => false
  | _ => true

theorem Atom.isInactive_of_sameTerm {a b : Atom} (h : SameTerm a b) :
    a.isInactive = b.isInactive := by
  have hbare : ∀ atom : Atom, (atom.bare fun _ => none).isInactive = atom.isInactive := by
    intro atom
    cases atom with
    | sequence s mark => rw [bare_sequence]; rfl
    | operator op mark => rw [bare_operator]; rfl
    | _ => rfl
  rw [← hbare a, h, hbare]

theorem Atom.applyWith_of_isInactive {natives : Natives} {evaluate : GuardEvaluator} {place : Place}
    {head argument : Atom} (h : head.isInactive = true) :
    applyWith natives evaluate place head argument =
      .value (.application head argument .empty .new) := by
  cases head with
  | operator op mark => cases h
  | lambda parameter body mark => cases h
  | _ => rfl

namespace Atom

variable {mark mark' : Mark}

theorem sameTerm_var {name : String} {type type' : Atom} {guard guard' : Option Atom}
    {index : UInt64}
    (htype : SameTerm type type') (hguard : guard.map term = guard'.map term) :
    SameTerm (var name type guard index mark) (var name type' guard' index mark') := by
  have hbare : guard.map (bare fun _ => none) = guard'.map (bare fun _ => none) := hguard
  rw [SameTerm, Like, bare_var, bare_var, htype, hbare]

theorem sameTerm_lambda {parameter body body' : Atom} (h : SameTerm body body') :
    SameTerm (lambda parameter body mark) (lambda parameter body' mark') := by
  rw [SameTerm, Like, bare_lambda, bare_lambda, h]

theorem sameTerm_sequence {s s' : Sequence Atom} (hproperties : s.properties.SameTerm s'.properties)
    (helements : s.elements.map term = s'.elements.map term) :
    SameTerm (sequence s mark) (sequence s' mark') := by
  rw [SameTerm, Like, bare_sequence, bare_sequence]
  exact congrArg (sequence · .new) (congrArg₂ Sequence.mk hproperties helements)

theorem sameTerm_properties {properties properties' : Properties}
    (h : ∀ law, (properties.get law).map term = (properties'.get law).map term) :
    properties.SameTerm properties' := by
  refine PropertySet.eq_of_get_eq fun law => ?_
  rw [PropertySet.get_bare, PropertySet.get_bare]
  exact h law

theorem sameTerm_propertySet {properties properties' : Properties}
    (h : properties.SameTerm properties') :
    SameTerm (propertySet properties mark) (propertySet properties' mark') :=
  congrArg (propertySet · .new) h

theorem sameTerm_application {head head' argument argument' : Atom} {bound bound' : Bindings}
    (hhead : SameTerm head head') (hargument : SameTerm argument argument') :
    SameTerm (application head argument bound mark) (application head' argument' bound' mark') := by
  rw [SameTerm, Like, bare_application, bare_application, hhead, hargument]

end Atom

namespace Abstraction

variable {r : Abstraction} {among : Atom → Prop}

theorem isInactive_renamed {atom : Atom} (h : atom.isInactive = true) :
    (r.renamed atom).isInactive = true := by
  cases atom with
  | var other type guard index mark =>
      rcases exists_renamed_var (r := r) other type guard index mark with ⟨_, _, _, _, _, heq⟩
      rw [heq]
      rfl
  | sequence s mark => rcases s; rfl
  | operator op mark => cases h
  | lambda parameter body mark => cases h
  | _ => rfl

section

variable {natives : Natives} {nesting : Nat} {value : Atom}

theorem isConstant_of_isInert {atom : Atom}
    (h : atom.isInert (NameMap.empty.insert r.name value) = true) : atom.isConstant = true := by
  rw [isInert, NameMap.isEmpty_insert, Bool.false_or, Bool.and_eq_true] at h
  exact h.1

/-- An application becomes the application of what its head and its argument become: of an operator,
which stands with the new argument as well, or without anything being applied. -/
theorem becomes_application (hcollision : NoCollision among) {head argument : Atom}
    {bound : Bindings} {mark : Mark}
    (h : (Atom.application head argument bound mark).Reached r.name (r.Allows among))
    (hhead : ∀ place, (rewriteWith (applyWithin natives (nesting + 1))
      (NameMap.empty.insert r.name value) place head).Becomes SameTerm head (r.renamed head))
    (hargument : ∀ place, (rewriteWith (applyWithin natives (nesting + 1))
      (NameMap.empty.insert r.name value) place argument).Becomes SameTerm argument
        (r.renamed argument)) (place : Place) :
    (rewriteWith (applyWithin natives (nesting + 1)) (NameMap.empty.insert r.name value) place
      (.application head argument bound mark)).Becomes SameTerm
        (.application head argument bound mark)
        (r.renamed (.application head argument bound mark)) := by
  rcases reached_application.mp h with ⟨hself, -, hreached⟩
  rw [rewriteWith]
  split
  · rw [renamed_of_isConstant _ h (isConstant_of_isInert ‹_›)]
    exact Evaluation.becomes_same (Like.refl _)
  · rw [renamed, substituted_application]
    cases hinactive : head.isInactive with
    | true =>
        refine (hhead _).bind fun newHead hnewHead hkeptHead => ?_
        refine (hargument _).bind fun newArgument hnew hkeptArgument => ?_
        have hactive := (isInactive_of_sameTerm hnewHead).trans (isInactive_renamed hinactive)
        split
        · rw [applyWithin, applyWith_of_isInactive hactive]
          exact Evaluation.becomes_new (sameTerm_application hnewHead hnew)
        · rename_i hchanged
          rw [Bool.not_eq_true, Bool.or_eq_false_iff] at hchanged
          rw [hkeptHead hchanged.1] at hnewHead
          rw [hkeptArgument hchanged.2] at hnew
          exact Evaluation.becomes_same (sameTerm_application hnewHead hnew)
    | false =>
        cases head with
        | operator op opMark =>
            rcases hself.operator op opMark argument bound mark rfl with ⟨hstands, hlaws⟩
            rw [substituted_operator]
            refine (hargument _).bind fun newArgument hnew hkeptArgument => ?_
            rcases hstands.carries with ⟨s, listMark, rfl, -⟩
            split
            · rcases result_applyWith_renamed hcollision hstands hlaws hreached hnew natives
                (guardEvaluator (applyWithin natives nesting) (2 :: place)) with
                ⟨list, bound', hresult, hlist⟩
              exact ⟨_, Evaluation.result_bind_of_ok hresult _,
                sameTerm_application (Like.refl _) hlist, fun hchanged => by cases hchanged⟩
            · rename_i hchanged
              rw [Bool.not_eq_true, Bool.or_eq_false_iff] at hchanged
              rw [hkeptArgument hchanged.2] at hnew
              exact Evaluation.becomes_same (sameTerm_application (Like.refl _) hnew)
        | lambda parameter body lambdaMark => exact absurd rfl (hself.lambda _ _ _ _ _ _)
        | _ => cases hinactive

mutual

/-- Rewriting puts the bound variable in the place of the pattern variable, and nothing else is
done. -/
theorem becomes_rewriteWith (hcollision : NoCollision among) (hvalue : SameTerm value r.bound) :
    ∀ atom : Atom, atom.Reached r.name (r.Allows among) → ∀ place,
      (rewriteWith (applyWithin natives (nesting + 1)) (NameMap.empty.insert r.name value) place
        atom).Becomes SameTerm atom (r.renamed atom)
  | .typeUniverse _ | .root _ _ | .literal _ _ _ => fun _ place => by
      rw [rewriteWith]
      exact Evaluation.becomes_same (Like.refl _)
  | .operator op _ => fun _ place => by
      rw [rewriteWith, renamed, substituted_operator]
      exact Evaluation.becomes_same (Like.refl _)
  | .var other type guard index mark => fun h place => by
      rw [rewriteWith]
      split
      · rw [renamed_of_isConstant _ h (isConstant_of_isInert ‹_›)]
        exact Evaluation.becomes_same (Like.refl _)
      · rename_i hinert
        by_cases hname : other = r.name
        · have hvar : (Atom.var other type guard index mark).variableName? = some r.name :=
            congrArg some hname
          rw [renamed, substituted_of_name hvar, hname, NameMap.find?_insert_self]
          exact Evaluation.becomes_new hvalue
        · rw [NameMap.find?_insert_of_ne _ _ hname]
          simp only [NameMap.find?_empty]
          by_cases hindex : index = 0
          · subst hindex
            rw [if_neg (by simp), renamed, substituted_freeVar hname]
            have hparts := (reached_freeVar.mp h).2 hname
            refine (becomes_rewriteWith hcollision hvalue type hparts.1 _).bind
              fun newType htype hkeptType => ?_
            refine (becomes_rewriteOption hcollision hvalue guard hparts.2 _).bind
              fun newGuard hguard hkeptGuard => ?_
            refine Evaluation.becomes_rebuilt (sameTerm_var htype hguard) fun hchanged => ?_
            rw [Bool.or_eq_false_iff] at hchanged
            rw [hkeptType hchanged.1] at htype
            rw [hkeptGuard hchanged.2] at hguard
            exact sameTerm_var htype hguard
          · rw [if_pos (by simpa using hindex), renamed_of_isConstant _ h (by simpa [isConstant])]
            exact Evaluation.becomes_same (Like.refl _)
  | .lambda parameter body mark => fun h place => by
      rw [rewriteWith]
      split
      · rw [renamed_of_isConstant _ h (isConstant_of_isInert ‹_›)]
        exact Evaluation.becomes_same (Like.refl _)
      · have hbody := (reached_lambda.mp h).2
        refine (becomes_rewriteWith hcollision hvalue body hbody _).bind
          fun newBody hbody hkept => ?_
        refine Evaluation.becomes_rebuilt (sameTerm_lambda hbody) fun hchanged => ?_
        rw [hkept hchanged] at hbody
        exact sameTerm_lambda hbody
  | .sequence ⟨properties, elements⟩ mark => fun h place => by
      rw [rewriteWith, renamed, substituted_sequence]
      refine (becomes_rewriteSequence hcollision hvalue ⟨properties, elements⟩ h _).bind
        fun new hnew hkept => ?_
      refine Evaluation.becomes_rebuilt (sameTerm_sequence hnew.1 hnew.2) fun hchanged => ?_
      rw [hkept hchanged] at hnew
      exact sameTerm_sequence hnew.1 hnew.2
  | .propertySet properties mark => fun h place => by
      rw [rewriteWith, renamed, substituted_propertySet]
      refine (becomes_rewriteProperties hcollision hvalue properties (reached_propertySet.mp h).2
        (h.self.laws properties rfl) h.self.wellMade _).bind
          fun newProperties hproperties hkept => ?_
      refine Evaluation.becomes_rebuilt (sameTerm_propertySet hproperties) fun hchanged => ?_
      rw [hkept hchanged] at hproperties
      exact sameTerm_propertySet hproperties
  | .application head argument bound mark => fun h =>
      have hparts := reached_application.mp h
      becomes_application hcollision h (becomes_rewriteWith hcollision hvalue head hparts.2.1)
        (becomes_rewriteWith hcollision hvalue argument hparts.2.2)

theorem becomes_rewriteSequence (hcollision : NoCollision among) (hvalue : SameTerm value r.bound) :
    ∀ (s : Sequence Atom) {mark : Mark}, (sequence s mark).Reached r.name (r.Allows among) →
      ∀ place, (rewriteSequence (applyWithin natives (nesting + 1))
        (NameMap.empty.insert r.name value) place s).Becomes
          (fun new target => new.properties.SameTerm target.properties ∧
            new.elements.map term = target.elements.map term) s
          ⟨r.renamedLaws s.properties, s.elements.map r.renamed⟩
  | ⟨properties, elements⟩, mark => fun h place => by
      rw [rewriteSequence]
      rcases reached_sequence.mp h with ⟨hself, hlaws, hlist⟩
      split
      · have hconstant := isConstant_of_isInert ‹_›
        rw [isConstant, Bool.and_eq_true] at hconstant
        rw [renamedLaws_of_isConstant properties hlaws hconstant.1,
          list_renamed_of_isConstant elements hlist hconstant.2]
        exact Evaluation.becomes_same ⟨rfl, rfl⟩
      · refine (becomes_rewriteProperties hcollision hvalue properties hlaws
          (hself.laws properties rfl) hself.wellMade.1 _).bind
            fun newProperties hproperties hkeptP => ?_
        refine (becomes_rewriteList hcollision hvalue elements hlist _).bind
          fun newElements helements hkeptE => ?_
        have hlist := Sequence.normalize_of_sameTerm hproperties helements
          (normalize_renamed hcollision h)
        refine Evaluation.becomes_rebuilt ⟨hproperties, ?_⟩ fun hchanged => ?_
        · rw [Sequence.ofList, hlist]
          exact helements
        · rw [Bool.or_eq_false_iff] at hchanged
          rw [hkeptP hchanged.1] at hproperties
          rw [hkeptE hchanged.2] at helements
          exact ⟨hproperties, helements⟩

theorem becomes_rewriteList (hcollision : NoCollision among) (hvalue : SameTerm value r.bound) :
    ∀ list : List Atom, (∀ atom ∈ list, atom.Reached r.name (r.Allows among)) → ∀ place,
      (rewriteList (applyWithin natives (nesting + 1)) (NameMap.empty.insert r.name value) place
        list).Becomes (fun new target => new.map term = target.map term) list
          (list.map r.renamed)
  | [] => fun _ place => by
      rw [rewriteList]
      exact Evaluation.becomes_same rfl
  | atom :: rest => fun h place => by
      rw [rewriteList]
      rw [List.forall_mem_cons] at h
      refine (becomes_rewriteWith hcollision hvalue atom h.1 _).bind fun newAtom hatom hkept => ?_
      refine (becomes_rewriteList hcollision hvalue rest h.2 _).bind
        fun newRest hrest hkeptRest => ?_
      refine ⟨_, rfl, ?_, fun hchanged => ?_⟩
      · exact congrArg₂ List.cons hatom hrest
      · rw [Bool.or_eq_false_iff] at hchanged
        exact congrArg₂ List.cons (hkept hchanged.1) (hkeptRest hchanged.2)

theorem becomes_rewriteOption (hcollision : NoCollision among) (hvalue : SameTerm value r.bound) :
    ∀ law : Option Atom, (∀ atom ∈ law, atom.Reached r.name (r.Allows among)) → ∀ place,
      (rewriteOption (applyWithin natives (nesting + 1)) (NameMap.empty.insert r.name value) place
        law).Becomes (fun new target => new.map term = target.map term) law
          (law.map r.renamed)
  | none => fun _ place => by
      rw [rewriteOption]
      exact Evaluation.becomes_same rfl
  | some atom => fun h place => by
      rw [rewriteOption]
      refine (becomes_rewriteWith hcollision hvalue atom (h atom rfl) _).bind
        fun newAtom hatom hkept => ?_
      exact ⟨_, rfl, congrArg some hatom, fun hchanged => congrArg some (hkept hchanged)⟩

theorem becomes_rewriteProperties (hcollision : NoCollision among)
    (hvalue : SameTerm value r.bound) : ∀ properties : PropertySet Atom,
    (∀ value ∈ properties.values, value.Reached r.name (r.Allows among)) →
      r.SparesFlags properties →
      properties.checked = .ok properties → ∀ place,
        (rewriteProperties (applyWithin natives (nesting + 1)) (NameMap.empty.insert r.name value)
          place properties).Becomes PropertySet.SameTerm properties (r.renamedLaws properties)
  | ⟨a, c, i, b, d⟩ => fun h hflags hlegal place => by
      rw [rewriteProperties]
      split
      · have hconstant := isConstant_of_isInert ‹_›
        rw [renamedLaws_of_isConstant _ h hconstant]
        exact Evaluation.becomes_same rfl
      · simp only [PropertySet.values, List.forall_mem_append, Option.mem_toList] at h
        rcases h with ⟨ha, hc, hi, hb, hd⟩
        refine (becomes_rewriteOption hcollision hvalue a ha _).bind fun newA hnewA hkeptA => ?_
        refine (becomes_rewriteOption hcollision hvalue c hc _).bind fun newC hnewC hkeptC => ?_
        refine (becomes_rewriteOption hcollision hvalue i hi _).bind fun newI hnewI hkeptI => ?_
        refine (becomes_rewriteOption hcollision hvalue b hb _).bind fun newB hnewB hkeptB => ?_
        refine (becomes_rewriteOption hcollision hvalue d hd _).bind fun newD hnewD hkeptD => ?_
        have hlaws : PropertySet.SameTerm
            ⟨newA.value, newC.value, newI.value, newB.value, newD.value⟩
            (r.renamedLaws ⟨a, c, i, b, d⟩) :=
          sameTerm_properties fun law => by cases law <;> assumption
        split
        · have hchecked := hflags.checked hlegal
          rw [← @checked_properties_bare fun _ => none, ← show _ = _ from hlaws,
            checked_properties_bare] at hchecked
          simp only [hchecked]
          exact Evaluation.becomes_new hlaws
        · rename_i hchanged
          simp only [Bool.or_eq_true, not_or, Bool.not_eq_true] at hchanged
          rcases hchanged with ⟨⟨⟨⟨hA, hC⟩, hI⟩, hB⟩, hD⟩
          rw [hkeptA hA, hkeptC hC, hkeptI hI, hkeptB hB, hkeptD hD] at hlaws
          exact Evaluation.becomes_same hlaws

end

end

end Abstraction

/-!
## Lambdas

The index of a new lambda is one above that of its body, so nothing in the body has it and
renaming is harmless.  What may stop a lambda from being made is an operator that has to be
applied again and does not take the variable.
-/

namespace Abstraction

end Abstraction

namespace Engine

variable {engine : Engine} {among : Atom → Prop}

/-- Evaluates nothing, but guards may apply operators. -/
def quiet : Engine := { idle with nesting := 3 }

end Engine

end Equational
