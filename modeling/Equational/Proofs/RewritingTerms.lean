import Equational.Proofs.NormalTerms
import Equational.Proofs.Parts

/-!
# Rewriting normal terms

An atom in which nothing is replaced is given back as it was.  A free variable
gives what it is bound to, and an application of a plain operator gives what
applying the operator to the rewritten arguments gives.
-/

namespace Equational

open Atom

namespace Atom

variable {apply : Place → Atom → Atom → Evaluation Atom} {binds : Bindings} {place : Place}

@[simp] theorem result_same {α : Type} (a : α) : (Rewritten.same a).result = .ok ⟨a, false⟩ := rfl

/-!
## What is not changed

What rewriting did not change, it gives back, and it does not change what it can pass over.
-/

theorem rewriteWith_of_isInert {atom : Atom} (h : atom.isInert binds = true) :
    (rewriteWith apply binds place atom).result = .ok ⟨atom, false⟩ := by
  cases atom with
  | typeUniverse mark => rfl
  | root name mark => rfl
  | literal value type mark => rfl
  | operator op mark => rfl
  | var name type guard index mark =>
      rw [rewriteWith, if_pos h]
      rfl
  | lambda parameter body mark =>
      rw [rewriteWith, if_pos h]
      rfl
  | sequence s mark =>
      rcases s with ⟨properties, elements⟩
      have hsequence : isInert (sequence ⟨properties, elements⟩ .new) binds = true := h
      rw [rewriteWith, Evaluation.result_bind_eq_ok_iff]
      refine ⟨⟨⟨properties, elements⟩, false⟩, ?_, rfl⟩
      rw [rewriteSequence, if_pos hsequence]
      rfl
  | propertySet properties mark =>
      rcases properties with ⟨a, c, i, b, d⟩
      have hproperties : isInert (propertySet ⟨a, c, i, b, d⟩ .new) binds = true := h
      rw [rewriteWith, Evaluation.result_bind_eq_ok_iff]
      refine ⟨⟨⟨a, c, i, b, d⟩, false⟩, ?_, rfl⟩
      rw [rewriteProperties, if_pos hproperties]
      rfl
  | application head argument bound mark =>
      rw [rewriteWith, if_pos h]
      rfl

theorem value_of_not_changed {atom : Atom} {new : Rewritten Atom}
    (h : (rewriteWith apply binds place atom).result = .ok new) (hchanged : new.changed = false) :
    new.value = atom := by
  have hsame : ∀ {a : Atom}, (Rewritten.same a).result = .ok new → new.value = a := by
    intro a ha
    injection ha with hnew
    rw [← hnew]
  have hpure : ∀ {a : Atom}, (pure ⟨a, true⟩ : Evaluation (Rewritten Atom)).result = .ok new →
      new.value = atom := by
    intro a ha
    injection ha with hnew
    rw [← hnew] at hchanged
    cases hchanged
  cases atom with
  | typeUniverse mark => exact hsame h
  | root name mark => exact hsame h
  | literal value type mark => exact hsame h
  | operator op mark => exact hsame h
  | var name type guard index mark =>
      rw [rewriteWith] at h
      split at h
      · exact hsame h
      · split at h
        · exact hpure h
        · split at h
          · exact hsame h
          · simp only [Evaluation.result_bind_eq_ok_iff] at h
            rcases h with ⟨newType, -, newGuard, -, h⟩
            split at h
            · exact hpure h
            · exact hsame h
  | lambda parameter body mark =>
      rw [rewriteWith] at h
      split at h
      · exact hsame h
      · simp only [Evaluation.result_bind_eq_ok_iff] at h
        rcases h with ⟨newBody, -, h⟩
        split at h
        · exact hpure h
        · exact hsame h
  | sequence s mark =>
      rw [rewriteWith] at h
      simp only [Evaluation.result_bind_eq_ok_iff] at h
      rcases h with ⟨newSequence, -, h⟩
      split at h
      · exact hpure h
      · exact hsame h
  | propertySet properties mark =>
      rw [rewriteWith] at h
      simp only [Evaluation.result_bind_eq_ok_iff] at h
      rcases h with ⟨newProperties, -, h⟩
      split at h
      · exact hpure h
      · exact hsame h
  | application head argument bound mark =>
      rw [rewriteWith] at h
      split at h
      · exact hsame h
      · simp only [Evaluation.result_bind_eq_ok_iff] at h
        rcases h with ⟨newHead, -, newArgument, -, h⟩
        split at h
        · rw [Evaluation.result_bind_eq_ok_iff] at h
          rcases h with ⟨applied, -, h⟩
          exact hpure h
        · exact hsame h

theorem rewriteList_cons_eq_ok_iff {atom : Atom} {rest : List Atom} {new : Rewritten (List Atom)} :
    (rewriteList apply binds place (atom :: rest)).result = .ok new ↔
      ∃ first others, (rewriteWith apply binds (0 :: place) atom).result = .ok first ∧
        (rewriteList apply binds (1 :: place) rest).result = .ok others ∧
        new = ⟨first.value :: others.value, first.changed || others.changed⟩ := by
  rw [rewriteList]
  simp only [Evaluation.result_bind_eq_ok_iff, Evaluation.result_pure, Except.ok.injEq]
  constructor
  · rintro ⟨first, hfirst, others, hothers, rfl⟩
    exact ⟨first, others, hfirst, hothers, rfl⟩
  · rintro ⟨first, others, hfirst, hothers, rfl⟩
    exact ⟨first, hfirst, others, hothers, rfl⟩

theorem list_value_of_not_changed {list : List Atom} {new : Rewritten (List Atom)}
    (h : (rewriteList apply binds place list).result = .ok new) (hchanged : new.changed = false) :
    new.value = list := by
  induction list generalizing place new with
  | nil =>
      injection h with hnew
      rw [← hnew]
  | cons atom rest ih =>
      rcases rewriteList_cons_eq_ok_iff.mp h with ⟨first, others, hfirst, hothers, rfl⟩
      simp only [Bool.or_eq_false_iff] at hchanged
      rw [value_of_not_changed hfirst hchanged.1, ih hothers hchanged.2]

theorem rewriteList_of_isInert {list : List Atom} (h : ∀ atom ∈ list, atom.isInert binds = true) :
    (rewriteList apply binds place list).result = .ok ⟨list, false⟩ := by
  induction list generalizing place with
  | nil => rfl
  | cons atom rest ih =>
      exact rewriteList_cons_eq_ok_iff.mpr ⟨_, _,
        rewriteWith_of_isInert (h atom List.mem_cons_self),
        ih fun other hother => h other (List.mem_cons_of_mem _ hother), rfl⟩

theorem forall₂_of_rewriteList {R : Atom → Atom → Prop} {list : List Atom}
    {new : Rewritten (List Atom)}
    (h : (rewriteList apply binds place list).result = .ok new)
    (hall : ∀ atom ∈ list, ∀ (place : Place) (first : Rewritten Atom),
      (rewriteWith apply binds place atom).result = .ok first → R atom first.value) :
    List.Forall₂ R list new.value := by
  induction list generalizing place new with
  | nil =>
      injection h with hnew
      rw [← hnew]
      exact List.Forall₂.nil
  | cons atom rest ih =>
      rcases rewriteList_cons_eq_ok_iff.mp h with ⟨first, others, hfirst, hothers, rfl⟩
      exact List.Forall₂.cons (hall atom List.mem_cons_self _ _ hfirst)
        (ih hothers fun other hother => hall other (List.mem_cons_of_mem _ hother))

theorem exists_rewriteList {R : Atom → Atom → Prop} {list targets : List Atom}
    (h : List.Forall₂ (fun atom target => ∀ place, ∃ new : Rewritten Atom,
      (rewriteWith apply binds place atom).result = .ok new ∧ R new.value target) list targets)
    (place : Place) :
    ∃ new, (rewriteList apply binds place list).result = .ok new ∧
      List.Forall₂ R new.value targets := by
  induction h generalizing place with
  | nil => exact ⟨⟨[], false⟩, rfl, List.Forall₂.nil⟩
  | cons hfirst _ ih =>
      rcases hfirst (0 :: place) with ⟨first, hresult, hR⟩
      rcases ih (1 :: place) with ⟨others, hothers, hall⟩
      exact ⟨_, rewriteList_cons_eq_ok_iff.mpr ⟨first, others, hresult, hothers, rfl⟩,
        List.Forall₂.cons hR hall⟩

/-!
## Variables and applications

A variable gives what it is bound to.  An application is passed over if its argument is, and else
its arguments are rewritten and its operator is applied again if they have changed.
-/

theorem rewriteWith_free {name : String} {atom value : Atom} (h : atom.IsFree name)
    (hfind : binds.find? name = some value) :
    (rewriteWith apply binds place atom).result = .ok ⟨value, true⟩ := by
  rcases h with ⟨type, mark, rfl, -⟩
  have hinert : isInert (var name type none 0 mark) binds = false := by
    have hempty : binds.isEmpty = false := by
      rw [Bool.eq_false_iff]
      intro hempty
      have hentries : binds.entries = [] := by
        simpa [NameMap.isEmpty] using hempty
      rw [NameMap.find?, hentries] at hfind
      cases hfind
    simp [isInert, hempty, isConstant]
  rw [rewriteWith, hinert]
  simp only [Bool.false_eq_true, if_false, hfind]
  rfl

theorem rewriteWith_free_unbound {name : String} {atom : Atom} (h : atom.IsFree name)
    (hfind : binds.find? name = none) :
    (rewriteWith apply binds place atom).result = .ok ⟨atom, false⟩ := by
  rcases h with ⟨type, mark, rfl, hany⟩
  rw [rewriteWith]
  split
  · rfl
  · rw [hfind]
    simp only [bne_self_eq_false, Bool.false_eq_true, if_false]
    have htype : ∀ place, (rewriteWith apply binds place type).result = .ok ⟨type, false⟩ := by
      intro place
      cases type with
      | root other mark => rfl
      | _ => cases hany
    simp only [Evaluation.result_bind_eq_ok_iff]
    exact ⟨⟨type, false⟩, htype _, ⟨none, false⟩, rfl, rfl⟩

theorem isInert_application {op : Operator Atom} {mark listMark outerMark : Mark}
    (s : Sequence Atom)
    {bound : Bindings} :
    isInert (.application (.operator op mark) (.sequence s listMark) bound outerMark) binds =
      isInert (.sequence s .new) binds := by
  have hmax : ∀ n : UInt64, max 0 n = n := by
    intro n
    rw [show max 0 n = if 0 ≤ n then n else 0 from rfl, if_pos UInt64.zero_le]
  simp only [isInert, isConstant, bindingIndex, hmax, Bool.true_and]

theorem isInert_propertySet {properties : Properties} (hconstant : properties.isConstant = true)
    (hindex : properties.bindingIndex = 0) :
    isInert (.propertySet properties .new) binds = true := by
  have hconstant' : propertiesConstant properties = true := hconstant
  have hindex' : propertiesIndex properties = 0 := hindex
  simp only [isInert, isConstant, bindingIndex, hindex', hconstant', Bool.true_and,
    beq_self_eq_true, Bool.or_true]

theorem rewriteProperties_of_isInert {properties : Properties}
    (h : isInert (.propertySet properties .new) binds = true) :
    (rewriteProperties apply binds place properties).result = .ok ⟨properties, false⟩ := by
  rcases properties with ⟨a, c, i, b, d⟩
  rw [rewriteProperties, if_pos h]
  rfl

theorem rewriteWith_application_iff {op : Operator Atom} {mark listMark outerMark : Mark}
    {properties : Properties} {list : List Atom} {bound : Bindings}
    (hproperties : isInert (.propertySet properties .new) binds = true)
    (hinert : isInert (.sequence ⟨properties, list⟩ .new) binds = false) {new : Rewritten Atom} :
    (rewriteWith apply binds place (.application (.operator op mark)
        (.sequence ⟨properties, list⟩ listMark) bound outerMark)).result = .ok new ↔
      ∃ rewritten, (rewriteList apply binds (1 :: 1 :: place) list).result = .ok rewritten ∧
        if rewritten.changed then
          ∃ applied, (apply place (.operator op mark)
              (.sequence (.ofList properties rewritten.value) .new)).result = .ok applied ∧
            new = ⟨applied, true⟩
        else new = ⟨.application (.operator op mark) (.sequence ⟨properties, list⟩ listMark) bound
          outerMark, false⟩ := by
  have happlication : isInert (.application (.operator op mark) (.sequence ⟨properties, list⟩
      listMark) bound outerMark) binds = false := (isInert_application _).trans hinert
  simp only [rewriteWith, rewriteSequence, hinert, happlication, Bool.false_eq_true, if_false,
    Evaluation.result_bind_eq_ok_iff, rewriteProperties_of_isInert hproperties, result_same,
    Except.ok.injEq]
  constructor
  · rintro ⟨_, rfl, newArgument,
      ⟨newSequence, ⟨_, rfl, rewritten, hrewritten, hsame⟩, hargument⟩, h⟩
    refine ⟨rewritten, hrewritten, ?_⟩
    cases hchanged : rewritten.changed with
    | true =>
        simp only [hchanged, Bool.or_true, if_true, Evaluation.result_pure,
          Except.ok.injEq] at hsame
        subst hsame
        simp only [if_true, Evaluation.result_pure, Except.ok.injEq] at hargument
        subst hargument
        simp only [Bool.or_true, if_true, Evaluation.result_bind_eq_ok_iff, Evaluation.result_pure,
          Except.ok.injEq] at h
        rcases h with ⟨applied, happlied, rfl⟩
        rw [if_pos rfl]
        exact ⟨applied, happlied, rfl⟩
    | false =>
        simp only [hchanged, Bool.or_false, Bool.false_eq_true, if_false, result_same,
          Except.ok.injEq] at hsame
        subst hsame
        simp only [Bool.false_eq_true, if_false, result_same, Except.ok.injEq] at hargument
        subst hargument
        simp only [Bool.or_false, Bool.false_eq_true, if_false, result_same, Except.ok.injEq] at h
        simp only [Bool.false_eq_true, if_false]
        exact h.symm
  · rintro ⟨rewritten, hrewritten, h⟩
    cases hchanged : rewritten.changed with
    | true =>
        rw [hchanged, if_pos rfl] at h
        rcases h with ⟨applied, happlied, rfl⟩
        refine ⟨_, rfl, ⟨.sequence (.ofList properties rewritten.value) .new, true⟩,
          ⟨⟨.ofList properties rewritten.value, true⟩,
            ⟨_, rfl, rewritten, hrewritten, ?_⟩, rfl⟩, ?_⟩
        · simp [hchanged]
        · simp only [Bool.or_true, if_true, Evaluation.result_bind_eq_ok_iff]
          exact ⟨applied, happlied, rfl⟩
    | false =>
        rw [hchanged] at h
        simp only [Bool.false_eq_true, if_false] at h
        subst h
        refine ⟨_, rfl, ⟨.sequence ⟨properties, list⟩ listMark, false⟩,
          ⟨⟨⟨properties, list⟩, false⟩, ⟨_, rfl, rewritten, hrewritten, ?_⟩, rfl⟩, rfl⟩
        simp [hchanged]

end Atom

namespace Normal

variable {signature : Operator Atom → Prop} {apply : Place → Atom → Atom → Evaluation Atom}
  {binds : Bindings} {place : Place}

theorem isInert_iff (hsignature : PlainSignature signature) {atom : Atom}
    (h : Normal signature atom) :
    atom.isInert binds = true ↔ binds.isEmpty = true ∨ atom.isConstant = true := by
  simp [isInert, h.bindingIndex_eq_zero hsignature]

variable {op : Operator Atom} {mark listMark outerMark : Mark} {list : List Atom} {bound : Bindings}

theorem isConstant_application_iff (hop : op.Plain) :
    (Atom.application (.operator op mark) (.sequence ⟨op.properties, list⟩ listMark) bound
      outerMark).isConstant = true ↔ ∀ atom ∈ list, atom.isConstant = true := by
  have hconstant : propertiesConstant op.properties = true := hop.constant
  simp [isConstant, hconstant, listConstant_iff]

theorem isInert_properties (hop : op.Plain) :
    isInert (.propertySet op.properties .new) binds = true :=
  isInert_propertySet hop.constant hop.bindingIndex

theorem isInert_of_application (hsignature : PlainSignature signature) (hop : signature op)
    (h : Normal signature
      (.application (.operator op mark) (.sequence ⟨op.properties, list⟩ listMark)
      bound outerMark))
    (hlist : ∀ atom ∈ list, Normal signature atom)
    (hinert : isInert (.application (.operator op mark) (.sequence ⟨op.properties, list⟩ listMark)
      bound outerMark) binds = true) {atom : Atom} (hatom : atom ∈ list) :
    atom.isInert binds = true := by
  rw [(hlist atom hatom).isInert_iff hsignature]
  rcases (h.isInert_iff hsignature).mp hinert with hempty | hconstant
  · exact Or.inl hempty
  · exact Or.inr ((isConstant_application_iff (hsignature.plain op hop)).mp hconstant atom hatom)

theorem rewriteWith_application (hop : op.Plain)
    (hinert : isInert (.application (.operator op mark) (.sequence ⟨op.properties, list⟩ listMark)
      bound outerMark) binds = false) {new : Rewritten Atom} :
    (rewriteWith apply binds place (.application (.operator op mark)
        (.sequence ⟨op.properties, list⟩ listMark) bound outerMark)).result = .ok new ↔
      ∃ rewritten, (rewriteList apply binds (1 :: 1 :: place) list).result = .ok rewritten ∧
        if rewritten.changed then
          ∃ applied, (apply place (.operator op mark)
              (.sequence (.ofList op.properties rewritten.value) .new)).result = .ok applied ∧
            new = ⟨applied, true⟩
        else new = ⟨.application (.operator op mark)
          (.sequence ⟨op.properties, list⟩ listMark) bound
          outerMark, false⟩ :=
  rewriteWith_application_iff (isInert_properties hop) ((isInert_application _).symm.trans hinert)

end Normal

end Equational
