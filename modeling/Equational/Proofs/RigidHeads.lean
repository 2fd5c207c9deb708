import Equational.Engine
import Equational.Proofs.Preservation
import Mathlib.Data.List.MinMax

/-!
# Rigid heads

What an application does depends on its head.  A variable at the head may be
replaced by anything, the body of a lambda changes under rewriting, and an
application of an associative operator may give back the only argument in it.
All other heads are rigid: rewriting makes rigid heads of them, among which it
leaves an operator the one that it was.

Operators stand in the parameters of operators, where guards apply them.  So a
condition on operators comes with a condition on their parameters, and is
stratified by the depth of such parameters.
-/

namespace Equational

open Evaluation

namespace Atom

/-!
## Heads

A variable or a lambda is no rigid head.  An associative operator is rigid but not steady, since
applying it may give back an argument.
-/

/-- Whether applications of the atom stay applications of such an atom. -/
def isSteady : Atom → Bool
  | var .. | lambda .. => false
  | operator op _ => !op.properties.isAssociative
  | application head _ _ _ => head.isSteady
  | _ => true

/-- Whether rewriting leaves at the head what is there: an operator, or an atom that is not applied
by evaluation. -/
def isRigid (head : Atom) : Bool := head.operator?.isSome || head.isSteady

theorem isRigid_of_isSteady {head : Atom} (h : head.isSteady = true) : head.isRigid = true := by
  rw [isRigid, h, Bool.or_true]

/-- The heads of applications are rigid.  Operators are without native evaluation, and satisfy a
condition on their parameters. -/
def RigidOver (q : List Atom → Prop) : Atom → Prop
  | application head _ _ _ => head.isRigid = true
  | operator op _ => op.native = none ∧ q op.parameters
  | _ => True

instance {q : List Atom → Prop} [DecidablePred q] : DecidablePred (RigidOver q)
  | application head _ _ _ => inferInstanceAs (Decidable (head.isRigid = true))
  | operator op _ => inferInstanceAs (Decidable (op.native = none ∧ q op.parameters))
  | typeUniverse _ | root .. | literal .. | var .. | lambda .. | sequence .. | propertySet .. =>
    instDecidableTrue

def Rigid : Atom → Prop := RigidOver fun _ => True

instance : DecidablePred Rigid := inferInstanceAs (DecidablePred (RigidOver fun _ => True))

/-!
## What evaluation makes of rigid heads

Applying a steady head gives a steady application, and rewriting makes a rigid head of a rigid
head.  So evaluation keeps the heads of applications rigid.
-/

variable {q : List Atom → Prop} {natives : Natives}

theorem asIs_of_dispatch {evaluate : GuardEvaluator} {op : Operator Atom}
    (hnative : op.native = none) {parameters list : List Atom} :
    (op.dispatch natives evaluate parameters list).Yields fun new => ∃ bound,
      new = Call.asIs ⟨op, .ofList op.properties list, bound⟩ := by
  unfold Operator.dispatch
  refine Yields.bind (p := fun _ => True) (fun _ _ => trivial) fun bound _ => ?_
  unfold Operator.evaluateCall
  simp only [hnative, Option.bind_none]
  exact yields_value ⟨bound, rfl⟩

theorem yields_applyWith_steady {evaluate : GuardEvaluator} {place : Place} {head argument : Atom}
    (hsteady : head.isSteady = true) (hrigid : RigidOver q head) :
    (applyWith natives evaluate place head argument).Yields fun new =>
      new.isSteady = true ∧ RigidOver q new := by
  cases head with
  | var name type guard index mark => cases hsteady
  | lambda parameter body mark => cases hsteady
  | operator op mark =>
      have hassociative : op.properties.isAssociative = false := by
        rwa [isSteady, Bool.not_eq_true'] at hsteady
      change (op.applyWith natives evaluate argument).Yields _
      unfold Operator.applyWith
      refine Yields.bind (p := fun _ => True) (fun _ _ => trivial) fun list _ => ?_
      rw [if_neg (Bool.eq_false_iff.mp hassociative)]
      intro new hnew
      rcases asIs_of_dispatch hrigid.1 new hnew with ⟨bound, rfl⟩
      exact ⟨hsteady, rfl⟩
  | _ => exact yields_value ⟨hsteady, isRigid_of_isSteady hsteady⟩

section

variable {evaluate : Place → GuardEvaluator} {binds : Bindings}

theorem yields_rewriteWith_steady : ∀ head : Atom, head.isSteady = true →
    head.Everywhere (RigidOver q) → ∀ place,
    (rewriteWith (fun place => applyWith natives (evaluate place) place) binds place head).Yields
      fun new => new.value.isSteady = true ∧ RigidOver q new.value
  | typeUniverse mark => fun hsteady h place => by
      rw [rewriteWith]
      exact yields_value ⟨hsteady, h⟩
  | root name mark => fun hsteady h place => by
      rw [rewriteWith]
      exact yields_value ⟨hsteady, h⟩
  | literal value type mark => fun hsteady h place => by
      rw [rewriteWith]
      exact yields_value ⟨hsteady, h.1⟩
  | var name type guard index mark => fun hsteady => by cases hsteady
  | lambda parameter body mark => fun hsteady => by cases hsteady
  | sequence s mark => fun hsteady h place => by
      rw [rewriteWith]
      refine Yields.bind (p := fun _ => True) (fun _ _ => trivial) fun new _ => ?_
      split
      · exact yields_value ⟨rfl, trivial⟩
      · exact yields_value ⟨rfl, trivial⟩
  | propertySet properties mark => fun hsteady h place => by
      rw [rewriteWith]
      refine Yields.bind (p := fun _ => True) (fun _ _ => trivial) fun new _ => ?_
      split
      · exact yields_value ⟨rfl, trivial⟩
      · exact yields_value ⟨rfl, trivial⟩
  | operator ⟨name, properties, parameters, resultType, native⟩ mark => fun hsteady h place => by
      rw [rewriteWith]
      exact yields_value ⟨hsteady, h.1⟩
  | application head argument bound mark => fun hsteady h place => by
      rw [rewriteWith]
      split
      · exact yields_value ⟨hsteady, h.1⟩
      · refine (yields_rewriteWith_steady head hsteady h.2.1 _).bind fun newHead hhead => ?_
        refine Yields.bind (p := fun _ => True) (fun _ _ => trivial) fun newArgument _ => ?_
        split
        · exact (yields_applyWith_steady hhead.1 hhead.2).bind fun applied happlied =>
            yields_value happlied
        · exact yields_value ⟨hsteady, h.1⟩

theorem yields_rewriteWith_rigid {head : Atom} (hrigid : head.isRigid = true)
    (h : head.Everywhere (RigidOver q)) (place : Place) :
    (rewriteWith (fun place => applyWith natives (evaluate place) place) binds place head).Yields
      fun new => new.value.isRigid = true ∧ RigidOver q new.value := by
  cases hoperator : head.operator? with
  | none =>
      rw [isRigid, hoperator] at hrigid
      intro new hnew
      have hnew := yields_rewriteWith_steady head hrigid h place new hnew
      exact ⟨isRigid_of_isSteady hnew.1, hnew.2⟩
  | some op =>
      cases head with
      | operator op mark =>
          rcases op with ⟨name, properties, parameters, resultType, native⟩
          rw [rewriteWith]
          exact yields_value ⟨rfl, h.1⟩
      | _ => cases hoperator

theorem kept_rigidOver :
    Kept (fun place => applyWith natives (evaluate place) place) (RigidOver q) where
  new := by
    intro atom h
    cases atom with
    | _ => exact h
  var _ := trivial
  lambda _ := trivial
  properties _ := trivial
  ofList _ := trivial
  checked _ := trivial
  head hrigid hhead := fun new hnew _ =>
    (yields_rewriteWith_rigid hrigid hhead _ new hnew).1
  apply := by
    intro place head argument hrigid hhead hargument
    cases head with
    | operator op mark =>
        refine Operator.yields_applyWith (passedOn_everywhere _) hhead
          (fun hlist new hnew => ?_) hargument
        have hnative : op.native = none := by
          rcases op with ⟨name, properties, parameters, resultType, native⟩
          exact hhead.1.1
        -- the operator stands at the head of what is dispatched
        rcases asIs_of_dispatch hnative new hnew with ⟨bound, rfl⟩
        refine ⟨rfl, ?_, trivial, hhead.properties, listEverywhere_normalize
          (listEverywhere_iff.mpr hlist)⟩
        rcases op with ⟨name, properties, parameters, resultType, native⟩
        exact hhead
    | lambda parameter body mark => cases hrigid
    | _ => exact yields_value ⟨hrigid, hhead, hargument⟩

end

/-!
## Operators in parameters of operators

Guards are evaluated where operators bind their parameters, so how deep operators stand in
parameters bounds how deep calls are nested.
-/

/-- Operators stand in the parameters of operators, and in the parameters of these, up to a depth
below a number; all heads in them are rigid. -/
def Stratified : Nat → List Atom → Prop
  | 0, _ => False
  | level + 1, parameters => ListEverywhere (RigidOver (Stratified level)) parameters

/-- A formal parameter lies a level below its operator. -/
def level : Role × Nat → Nat
  | (.formal, depth) => depth + 1
  | (_, depth) => depth

/-- How deep operators stand in the parameters of operators. -/
def operatorDepth : Atom → Nat :=
  fold fun atom depths =>
    ((if atom.operator?.isSome then 1 else 0) :: depths.map level).foldr max 0

theorem operatorDepth_eq (atom : Atom) : atom.operatorDepth =
    ((if atom.operator?.isSome then 1 else 0) ::
      atom.parts.map fun part => level (part.1, part.2.operatorDepth)).foldr max 0 :=
  (fold_eq _ atom).trans (by rw [List.map_map]; rfl)

theorem level_le_operatorDepth {atom : Atom} {part : Role × Atom} (h : part ∈ atom.parts) :
    level (part.1, part.2.operatorDepth) ≤ atom.operatorDepth := by
  rw [operatorDepth_eq atom]
  exact List.le_max_of_le' _ (List.mem_cons_of_mem _ (List.mem_map_of_mem h)) (Nat.le_refl _)

theorem operatorDepth_pos (op : Operator Atom) (mark : Mark) :
    0 < (operator op mark).operatorDepth := by
  rw [operatorDepth_eq]
  exact List.le_max_of_le' _ List.mem_cons_self (Nat.le_refl 1)

theorem le_level (part : Role × Nat) : part.2 ≤ level part := by
  rcases part with ⟨role, depth⟩
  cases role with
  | formal => exact Nat.le_succ depth
  | _ => exact Nat.le_refl depth

theorem everywhere_stratified (atom : Atom) (h : atom.Everywhere Rigid) (n : Nat)
    (hn : atom.operatorDepth ≤ n) : atom.Everywhere (RigidOver (Stratified n)) := by
  induction atom using parts_induction generalizing n with
  | step atom ih =>
      have hparts : ∀ part ∈ atom.parts, level (part.1, part.2.operatorDepth) ≤ n :=
        fun part hpart => Nat.le_trans (level_le_operatorDepth hpart) hn
      rw [everywhere_iff] at h ⊢
      refine ⟨?_, fun part hpart => ih part hpart (h.2 part hpart) n
        (Nat.le_trans (le_level (part.1, part.2.operatorDepth)) (hparts part hpart))⟩
      cases atom with
      | application head argument bound mark => exact h.1
      | operator op mark =>
          -- an operator takes up a level of its own, and its parameters stand below it
          cases n with
          | zero => exact absurd hn (Nat.not_le.mpr (operatorDepth_pos op mark))
          | succ n =>
              refine ⟨h.1.1, listEverywhere_iff.mpr fun parameter hmem => ?_⟩
              have hpart : (Role.formal, parameter) ∈ (operator op mark).parts :=
                List.mem_append_right _ (List.mem_append_left _ (List.mem_map_of_mem hmem))
              exact ih _ hpart (h.2 _ hpart) n (Nat.le_of_succ_le_succ (hparts _ hpart))
      | _ => trivial

end Atom

end Equational
