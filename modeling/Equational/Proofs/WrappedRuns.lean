import Equational.Proofs.PaddedParameters
import Equational.Proofs.Regrouping
import Equational.Proofs.StandingApplications

/-!
# Wrapped runs

Where an application is the subject of a match, a run of its arguments is
wrapped up as an application without applying the operator.  If the operator
has built the subject itself, then nothing in its arguments is left to be
simplified, and this remains so when some are left out or moved.  So the
operator would have given just what the run is wrapped up as.
-/

namespace Equational

open Atom

theorem Sequence.pruned_of_subperm {properties : Properties} {list run : List Atom}
    (h : pruned properties list = list) (hrun : run.Subperm list) :
    pruned properties run = run := by
  unfold pruned at h ⊢
  split at h
  · rcases hrun with ⟨kept, hperm, hsublist⟩
    have hkept := (pairwise_of_distinct h).sublist hsublist
    rw [if_pos ‹_›]
    refine distinct_of_pairwise (hkept.perm hperm fun {a b} hdiffer => ?_)
    rw [Bool.eq_false_iff] at hdiffer ⊢
    exact fun hequal => hdiffer (beq_symm hequal)
  · rw [if_neg ‹_›]

theorem Sequence.normalize_nil (properties : Properties) : normalize properties [] = [] := by
  have hpruned : pruned properties [] = [] := List.sublist_nil.mp (pruned_sublist properties [])
  cases hassociative : properties.isAssociative with
  | false => rw [normalize_of_not_associative hassociative, hpruned]
  | true => exact normalize_of_kept hassociative hpruned (List.forall_mem_nil _)

namespace Operator

variable {op : Operator Atom} {natives : Natives} {evaluate : GuardEvaluator}
  {argument result : Atom} {parameters arguments list run : List Atom} {bound : Bindings}

/-!
## What an operator builds

Only an operator that has formal parameters comes to a call that has arguments.
-/

/-- An application gives its only argument back, and builds nothing. -/
def HandsBack (op : Operator Atom) (argument result : Atom) : Prop :=
  ∃ list, (op.arguments argument).result = .ok list ∧ op.simplify list = [result]

/-- An application of an operator without evaluation, if the operator gives it, is either handed
back or built for a call. -/
theorem exists_assembled_or_handsBack (hnative : op.native = none) {mark listMark outerMark : Mark}
    {s : Sequence Atom} (hresult : result = .application (.operator op mark) (.sequence s listMark)
      bound outerMark)
    (h : (op.applyWith natives evaluate argument).result = .ok result) :
    op.HandsBack argument result ∨ ∃ parameters arguments bound,
      op.Calls evaluate argument parameters arguments bound ∧
        result = op.assembled arguments bound := by
  have hlaw : ∀ law, op.properties.get law ≠ some result := by
    intro law hget
    rw [hresult] at hget
    exact PropertySet.not_sameTerm_application hget rfl mark (.sequence s listMark) bound outerMark
      rfl
  rcases exists_calls h with
    ⟨-, habsorber | hidentity | hlone⟩ | ⟨parameters, arguments, bound, hcalls, -⟩
  · exact absurd habsorber (hlaw .absorber)
  · exact absurd hidentity (hlaw .identity)
  · exact .inl hlone
  · rw [hcalls.pairs.1.result_applyWith, dispatch_eq_ok_iff hnative] at h
    rcases h with ⟨bound', hbound, hassembled⟩
    rw [hcalls.bindParameters_eq] at hbound
    cases hbound
    exact .inr ⟨parameters, arguments, bound, hcalls, hassembled⟩

theorem Calls.parameters_ne_nil (h : op.Calls evaluate argument parameters arguments bound)
    (hne : arguments ≠ []) : op.parameters ≠ [] := by
  intro hnone
  have hnil : parameters = [] := by
    cases h with
    | fixed hassociative hlist hparameters hbound => rw [hparameters, hnone]
    | padded hassociative hlist harguments habsorbs hlone hidentity hparameters hbound =>
        rw [paddedParameters, hnone] at hparameters
        exact (Except.ok.inj hparameters).symm
  have hlength := length_eq_of_bindParameters h.bindParameters_eq
  rw [hnil] at hlength
  exact hne (List.length_eq_zero_iff.mp hlength.symm)

/-!
## What stays as it is

Elements that are different stay so when some are left out or moved, so nothing is simplified in a
part of a list in which nothing is.  A copy has the number sign in its name, and so no declared
parameter without it has that name.
-/

/-- Nothing in a list of arguments is left to be simplified, whatever is left out or moved. -/
structure Simplified (op : Operator Atom) (list : List Atom) : Prop where
  pruned : Sequence.pruned op.properties list = list
  units : ∀ atom ∈ list, op.isUnit atom = false
  absorbs : ∀ atom ∈ list, op.absorbs atom = false
  heads : ∀ atom ∈ list, op.heads atom = false

theorem Simplified.of_subperm (h : op.Simplified list) (hrun : run.Subperm list) :
    op.Simplified run where
  pruned := Sequence.pruned_of_subperm h.pruned hrun
  units atom hatom := h.units atom (hrun.subset hatom)
  absorbs atom hatom := h.absorbs atom (hrun.subset hatom)
  heads atom hatom := h.heads atom (hrun.subset hatom)

theorem Simplified.simplify_eq (h : op.Simplified list) : op.simplify list = list := by
  rw [simplify_eq_remaining h.heads, remaining_of_isUnit_eq_false h.units, h.pruned]

theorem simplified_of_normal (hassociative : op.properties.isAssociative = true)
    (h : Sequence.normalize op.properties list = list) (hseveral : 2 ≤ list.length)
    (hheads : ∀ atom ∈ list, op.heads atom = false) : op.Simplified list := by
  rcases Sequence.kept_of_normalize hassociative h with ⟨absorber, -, rfl⟩ | ⟨hpruned, hkept⟩
  · exact absurd hseveral (Nat.not_succ_le_self 1)
  · refine ⟨hpruned, fun atom hatom => ?_, fun atom hatom => ?_, hheads⟩
    · rw [isUnit, ← any_beq_comm, Bool.eq_false_iff]
      intro hunit
      have hopened := (hkept atom hatom).2
      rw [Sequence.opened, if_pos hunit] at hopened
      cases hopened
    · rw [absorbs, ← any_beq_comm]
      exact (hkept atom hatom).1

theorem not_clashes (hnumber : ∀ atom ∈ op.parameters, ∀ name, atom.variableName? = some name →
    '#' ∉ name.toList) : ¬op.Clashes list := by
  rintro @⟨last, declared, argument, other, name, i, copy, -, -, hdeclared, hnumbered, -⟩
  refine hnumber declared (List.mem_of_getElem? hdeclared) _ hnumbered ?_
  rw [String.toList_append, String.toList_append]
  exact List.mem_append_left _ (List.mem_append_right _ (List.mem_singleton.mpr rfl))

theorem Simplified.exists_assembled (h : op.Simplified list) (natives : Natives)
    (evaluate : GuardEvaluator) (mark : Mark) (hassociative : op.properties.isAssociative = true)
    (hnative : op.native = none) (hsome : op.parameters ≠ [])
    (hfree : ∀ atom ∈ op.parameters, ∃ name, atom.IsFree name)
    (hdistinct : (op.parameters.filterMap variableName?).Nodup)
    (hnumber : ∀ atom ∈ op.parameters, ∀ name, atom.variableName? = some name → '#' ∉ name.toList)
    (hmany : max op.parameters.length 2 ≤ list.length) :
    ∃ bound, (op.applyWith natives evaluate (.sequence (.plain list) mark)).result =
      .ok (op.assembled list bound) := by
  have hpairs := @exists_pairs_padded op list evaluate mark hassociative hsome hfree hdistinct
  rw [h.simplify_eq] at hpairs
  rcases hpairs hmany h.absorbs with ⟨parameters, hpairs, hmatch⟩
  rcases bindParameters_ok (hmatch.mpr (not_clashes hnumber)) with ⟨bound, hbound⟩
  rw [hpairs.result_applyWith]
  exact ⟨bound, (dispatch_eq_ok_iff hnative).mpr ⟨bound, hbound, rfl⟩⟩

end Operator

/-!
## Wrapping and applying
-/

namespace Engine

/-- An associative operator without evaluation, whose formal parameters are different variables that
accept everything and have no number sign in their names, has built an application.  Any of its
arguments, as many as there are parameters and two at least, in any order, are wrapped up as what
the operator gives for them, provided that none of the arguments is an application of it. -/
theorem wrap_beq_apply (engine : Engine) {op : Operator Atom}
    {mark headMark listMark outerMark runMark : Mark} {argument : Atom} {s : Sequence Atom}
    {bound : Bindings} {run : List Atom} (hassociative : op.properties.isAssociative = true)
    (hnative : op.native = none) (hfree : ∀ atom ∈ op.parameters, ∃ name, atom.IsFree name)
    (hdistinct : (op.parameters.filterMap variableName?).Nodup)
    (hnumber : ∀ atom ∈ op.parameters, ∀ name, atom.variableName? = some name → '#' ∉ name.toList)
    (happlied : (engine.apply (.operator op mark) argument).result =
      .ok (.application (.operator op headMark) (.sequence s listMark) bound outerMark))
    (hbuilt : ¬op.HandsBack argument
      (.application (.operator op headMark) (.sequence s listMark) bound outerMark))
    (hheads : ∀ atom ∈ s.elements, op.heads atom = false) (hrun : run.Subperm s.elements)
    (hmany : max op.parameters.length 2 ≤ run.length) :
    ∃ result, (engine.apply (.operator op mark) (.sequence (.plain run) runMark)).result =
        .ok result ∧
      ((Wrapper.application (.operator op mark) s.properties).wrap run == result) = true := by
  have hnesting : engine.nesting ≠ 0 := by
    intro hzero
    rw [apply, applyAt, hzero] at happlied
    cases happlied
  have hseveral : 2 ≤ run.length := Nat.le_trans (Nat.le_max_right _ _) hmany
  rcases exists_of_applyAt_ok happlied with ⟨evaluate, happlied⟩
  rcases (Operator.exists_assembled_or_handsBack hnative rfl happlied).resolve_left hbuilt with
    ⟨parameters, arguments, bound', hcalls, hassembled⟩
  rw [Operator.assembled, Atom.application.injEq, Atom.sequence.injEq] at hassembled
  rcases hassembled with ⟨-, ⟨rfl, -⟩, -⟩
  have hsimplified : op.Simplified (Sequence.normalize op.properties arguments) :=
    Operator.simplified_of_normal hassociative (Sequence.normalize_normalize _ _)
      (Nat.le_trans hseveral hrun.length_le) hheads
  have hsome : op.parameters ≠ [] := by
    refine hcalls.parameters_ne_nil fun hnone => ?_
    have hlength := hrun.length_le
    rw [hnone, Sequence.ofList, Sequence.normalize_nil] at hlength
    exact absurd (Nat.le_trans hseveral hlength) (Nat.not_succ_le_zero 1)
  have happly : ∃ evaluate, engine.applyAt engine.place (.operator op mark)
      (.sequence (.plain run) runMark) =
        op.applyWith engine.natives evaluate (.sequence (.plain run) runMark) :=
    applyAt_operator hnesting
  rcases happly with ⟨evaluate', happly⟩
  rcases (hsimplified.of_subperm hrun).exists_assembled engine.natives evaluate' runMark
    hassociative hnative hsome hfree hdistinct hnumber hmany with ⟨bound'', hresult⟩
  refine ⟨_, (congrArg Evaluation.result happly).trans hresult, ?_⟩
  rw [Wrapper.wrap_of_length_ne_one _ (by omega), Operator.assembled]
  have hhead : (Atom.operator op mark == .operator op .new) = true := (beq_iff _ _).mpr ⟨rfl, rfl⟩
  exact application_beq hhead (Atom.beq_refl _)

theorem isFree_binary : ∀ atom ∈ Operator.binary.parameters, ∃ name, atom.IsFree name :=
  List.forall_mem_cons.mpr ⟨⟨"x", .any, .new, rfl, rfl⟩,
    List.forall_mem_singleton.mpr ⟨"y", .any, .new, rfl, rfl⟩⟩

theorem numberSign_not_mem_binary : ∀ atom ∈ Operator.binary.parameters, ∀ name,
    atom.variableName? = some name → '#' ∉ name.toList := by
  refine List.forall_mem_cons.mpr ⟨?_, List.forall_mem_singleton.mpr ?_⟩
  · rintro name hname
    cases hname
    decide
  · rintro name hname
    cases hname
    decide

/-- Two of three numbers, in another order. -/
theorem wrap_beq_apply_numbers :
    ∃ result, (idle.apply (.operator .binary .new)
        (.sequence (.plain [.integer 3, .integer 1]) .new)).result = .ok result ∧
      ((Wrapper.application (.operator .binary .new) Operator.binary.properties).wrap
        [.integer 3, .integer 1] == result) = true := by
  have happlied := apply_eq_given idle .binary [.integer 1, .integer 2, .integer 3]
    (by decide +kernel)
  rcases (gives_of_apply rfl rfl happlied).eq_assembled (by decide +kernel) (by decide +kernel)
    (fun _ => rfl) with ⟨bound, hassembled⟩
  rw [hassembled] at happlied
  have hnormal : Sequence.normalize Operator.binary.properties
      (Operator.binary.remaining (Operator.binary.flatten [.integer 1, .integer 2, .integer 3])) =
        [.integer 1, .integer 2, .integer 3] := rfl
  refine wrap_beq_apply idle rfl rfl isFree_binary (by decide) numberSign_not_mem_binary happlied
    ?_ ?_ ?_ (Nat.le_refl 2)
  · rintro ⟨list, hlist, hlone⟩
    cases hlist
    cases hlone
  · rw [Sequence.ofList, hnormal]
    decide +kernel
  · rw [Sequence.ofList, hnormal]
    exact ⟨[.integer 1, .integer 3], .swap _ _ _, .cons_cons _ (.cons _ (.refl _))⟩

/-- An application of numbers in a plain sequence, which the operator has not built. -/
def loose : Atom :=
  .application (.operator .binary .new) (.sequence ⟨.none, [.integer 1, .integer 2]⟩ .new) .empty
    .new

def enclosingLoose : Atom := .application (.operator .binary .new) loose .empty .new

theorem apply_enclosingLoose : (idle.apply (.operator .binary .new)
    (.sequence (.plain [enclosingLoose]) .new)).result = .ok loose := by
  have hself : (Operator.binary == Operator.binary) = true := (Operator.beq_iff _ _).mpr ⟨rfl, rfl⟩
  exact idle.apply_eq_of_pieces rfl rfl
    (Operator.pieces_application hself .new loose .empty .new) rfl rfl (by decide +kernel)

/-- Arguments of an application that was handed back are wrapped up in a plain sequence, too, as the
operator would never give them. -/
theorem wrap_not_beq_apply :
    Operator.binary.properties.isAssociative = true ∧ Operator.binary.native = none ∧
      propertiesConstant Operator.binary.properties = true ∧
      (∀ atom ∈ Operator.binary.parameters, ∃ name, atom.IsFree name) ∧
      (Operator.binary.parameters.filterMap variableName?).Nodup ∧
      (∀ atom ∈ Operator.binary.parameters, ∀ name, atom.variableName? = some name →
        '#' ∉ name.toList) ∧
      (idle.apply (.operator .binary .new) (.sequence (.plain [enclosingLoose]) .new)).result =
        .ok loose ∧
      loose.isConstant = true ∧
      (∀ atom ∈ [Atom.integer 1, .integer 2],
        Operator.binary.heads atom = false ∧ Operator.binary.absorbs atom = false) ∧
      ∃ result, (idle.apply (.operator .binary .new)
          (.sequence (.plain [.integer 1, .integer 2]) .new)).result = .ok result ∧
        ((Wrapper.application (.operator .binary .new) .none).wrap [.integer 1, .integer 2] ==
          result) = false :=
  ⟨rfl, rfl, by decide +kernel, isFree_binary, by decide, numberSign_not_mem_binary,
    apply_enclosingLoose, by decide +kernel, by decide +kernel, _,
    apply_eq_given idle .binary [.integer 1, .integer 2] (by decide +kernel), by decide +kernel⟩

end Engine

end Equational
