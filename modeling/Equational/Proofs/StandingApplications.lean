import Equational.Proofs.Agreement
import Equational.Proofs.Handover

/-!
# Applications that stand

Applying an operator to an argument list that it has made itself gives the list back, as long as
nothing has changed about it.  What the operator looks at for this is little: whether arguments are
equal to each other and to what it declares, whether they are applications of it, and of which types
they are.  So a list of other arguments that are alike in these respects is left as it is, too.
-/

namespace Equational

open Atom

/-!
## Lists that stay normal
-/

namespace Sequence

variable {g : Atom → Atom} {properties other : Properties} {list : List Atom}

theorem pruned_map (hidempotent : other.isIdempotent = properties.isIdempotent)
    (hbeq : ∀ a ∈ list, ∀ b ∈ list, (g a == g b) = (a == b)) (h : pruned properties list = list) :
    pruned other (list.map g) = list.map g := by
  unfold pruned at h ⊢
  rw [hidempotent]
  split at h
  · rw [if_pos ‹_›]
    refine distinct_of_pairwise (List.pairwise_map.mpr ?_)
    exact (pairwise_of_distinct h).imp_of_mem fun ha hb hdiffer => (hbeq _ ha _ hb).trans hdiffer
  · rw [if_neg ‹_›]

/-- A function leaves a normal list normal if it keeps elements different, from the absorber too,
and makes none of them into an identity or a nested sequence. -/
theorem normalize_map (hassociative : other.isAssociative = properties.isAssociative)
    (hidempotent : other.isIdempotent = properties.isIdempotent)
    (hbeq : ∀ a ∈ list, ∀ b ∈ list, (g a == g b) = (a == b))
    (habsorber : ∀ a ∈ list, (other.absorber == some (g a)) = (properties.absorber == some a))
    (hopened : ∀ a ∈ list, opened properties a = none → opened other (g a) = none)
    (h : normalize properties list = list) : normalize other (list.map g) = list.map g := by
  cases hyes : properties.isAssociative with
  | false =>
      rw [normalize_of_not_associative hyes] at h
      rw [normalize_of_not_associative (hassociative.trans hyes)]
      exact pruned_map hidempotent hbeq h
  | true =>
      rcases kept_of_normalize hyes h with ⟨absorber, habsorbs, rfl⟩ | ⟨hpruned, hkept⟩
      · refine normalize_absorber (hassociative.trans hyes) ?_
        rw [habsorber absorber List.mem_cons_self, habsorbs]
      · refine normalize_of_kept (hassociative.trans hyes) (pruned_map hidempotent hbeq hpruned) ?_
        rw [List.forall_mem_map]
        exact fun atom hatom => ⟨(habsorber atom hatom).trans (hkept atom hatom).1,
          hopened atom hatom (hkept atom hatom).2⟩

theorem normalize_of_sameTerm {list' : List Atom} (h : other.SameTerm properties)
    (hlist : list'.map term = list.map term) (hnormal : normalize properties list = list) :
    normalize other list' = list' := by
  rw [← @normalize_eq_self_bare _ fun _ => none] at hnormal ⊢
  have hbare : list'.map (Atom.bare fun _ => none) = list.map (Atom.bare fun _ => none) := hlist
  rw [PropertySet.SameTerm] at h
  rw [hbare, h]
  exact hnormal

end Sequence

/-!
## Applications that stand

No argument that simplification keeps is an application of the operator, a unit or a duplicate.
-/

namespace Operator

variable {op : Operator Atom} {list : List Atom}

/-- No argument that simplification keeps is an application of the operator itself, since it would
have to be an argument of a greater one. -/
theorem heads_of_simplify_eq (h : op.simplify list = list) :
    ∀ atom ∈ list, op.heads atom = false := by
  have hgreater : ∀ atom ∈ list, op.heads atom = true →
      ∃ whole ∈ list, op.heads whole = true ∧ sizeOf atom < sizeOf whole := by
    intro atom hatom hheads
    have hflat := (@simplify_sublist op list).subset (h.symm ▸ hatom)
    rw [flatten_eq_flatMap, List.mem_flatMap] at hflat
    rcases hflat with ⟨whole, hwhole, hpiece⟩
    cases hheads' : op.heads whole with
    | false =>
        rw [pieces_of_heads_eq_false hheads', List.mem_singleton] at hpiece
        rw [hpiece, hheads'] at hheads
        cases hheads
    | true =>
        refine ⟨whole, hwhole, hheads', ?_⟩
        rcases heads_eq_true_iff.mp hheads' with
          ⟨inner, mark, argument, bound, outerMark, rfl, hinner⟩
        rw [pieces_application hinner] at hpiece
        have hargument : sizeOf atom ≤ sizeOf argument := by
          cases argument with
          | sequence s listMark =>
              have hlt := List.sizeOf_lt_of_mem (show atom ∈ s.elements from hpiece)
              rcases s with ⟨properties, elements⟩
              simp only [Atom.sequence.sizeOf_spec, Sequence.mk.sizeOf_spec] at hlt ⊢
              omega
          | _ => exact Nat.le_of_eq (congrArg sizeOf (List.mem_singleton.mp hpiece))
        simp only [Atom.application.sizeOf_spec]
        omega
  intro atom hatom
  rw [Bool.eq_false_iff]
  intro hheads
  -- greater and greater ones would be found in the list
  have hunbounded : ∀ n, ∃ whole ∈ list, op.heads whole = true ∧ n ≤ sizeOf whole := by
    intro n
    induction n with
    | zero => exact ⟨atom, hatom, hheads, Nat.zero_le _⟩
    | succ n ih =>
        rcases ih with ⟨whole, hwhole, hheads', hle⟩
        rcases hgreater whole hwhole hheads' with ⟨greater, hmem, hheads'', hlt⟩
        exact ⟨greater, hmem, hheads'', by omega⟩
  rcases hunbounded (sizeOf list) with ⟨whole, hwhole, -, hle⟩
  exact absurd (List.sizeOf_lt_of_mem hwhole) (Nat.not_lt.mpr hle)

theorem remaining_of_isUnit_eq_false (h : ∀ atom ∈ list, op.isUnit atom = false) :
    op.remaining list = Sequence.pruned op.properties list := by
  rw [remaining, List.filter_eq_self.mpr fun atom hatom => by rw [h atom hatom]; rfl]

theorem remaining_of_simplify_eq (h : op.simplify list = list) :
    (∀ atom ∈ list, op.isUnit atom = false) ∧ Sequence.pruned op.properties list = list := by
  rw [simplify_eq_remaining (heads_of_simplify_eq h)] at h
  have hunit : ∀ atom ∈ list, op.isUnit atom = false :=
    fun atom hatom => (mem_of_mem_remaining (h.symm ▸ hatom)).2
  exact ⟨hunit, (remaining_of_isUnit_eq_false hunit).symm.trans h⟩

end Operator

/-!
## Typed parameters

What typed parameters are matched with suits them, and padding with parameters that have no guards
evaluates nothing.
-/

section

variable {evaluate evaluate' : GuardEvaluator} {parameters arguments : List Atom}
  {binds found : Bindings}

theorem Atom.suits_of_mem_matchAll (htyped : ∀ atom ∈ parameters, ∃ name, atom.IsTyped name)
    (h : found ∈ (Element.matchAll (listElements evaluate parameters) arguments
      binds).alternatives) : List.Forall₂ Suits parameters arguments := by
  induction parameters generalizing arguments binds with
  | nil =>
      rw [List.length_eq_zero_iff.mp (Element.length_eq_of_mem_matchAll h).symm]
      exact .nil
  | cons parameter rest ih =>
      cases arguments with
      | nil => cases Element.length_eq_of_mem_matchAll h
      | cons argument arguments =>
          rw [listElements_cons, Element.alternatives_matchAll_cons, List.mem_flatMap] at h
          rcases h with ⟨middle, hmiddle, hfound⟩
          have hparts := List.forall_mem_cons.mp htyped
          refine .cons ?_ (ih hparts.2 hfound)
          rcases hparts.1 with ⟨name, type, mark, rfl, htype⟩
          change middle ∈ (search evaluate (.var name type none 0 mark) argument binds).alternatives
            at hmiddle
          rw [search_var, if_neg (by simp)] at hmiddle
          rcases Matcher.mem_ofFree hmiddle with ⟨hself, -⟩ | ⟨-, accepted, haccepted, -⟩
          · exact Or.inl hself
          · rw [Matcher.alternatives_watched, alternatives_search_leafType htype] at haccepted
            split at haccepted
            · exact Or.inr ‹_›
            · cases haccepted

namespace Operator

variable {op : Operator Atom}

theorem paddedParameters_of_typed {arity : Nat}
    (h : (op.paddedParameters evaluate arity).result = .ok parameters)
    (htyped : ∀ atom ∈ parameters, ∃ name, atom.IsTyped name) :
    (op.paddedParameters evaluate' arity).result = .ok parameters := by
  unfold paddedParameters at h ⊢
  split at h
  · exact h
  · rename_i name type guard index mark hlast
    rw [Evaluation.result_bind_eq_ok_iff] at h
    rcases h with ⟨more, hmore, hparameters⟩
    cases hparameters
    rcases htyped _ (List.mem_append_left _ (List.mem_of_getLast? hlast)) with
      ⟨other, otherType, otherMark, heq, -⟩
    cases heq
    rw [copies_result] at hmore
    rw [Evaluation.result_bind_of_ok (copies_result name type 1 _)]
    cases hmore
    rfl
  · cases h

theorem Calls.simplify_eq {s : Sequence Atom} {mark : Mark} {bound : Bindings}
    (h : op.Calls evaluate (.sequence s mark) parameters s.elements bound)
    (hyes : op.properties.isAssociative = true) :
    op.simplify s.elements = s.elements ∧ ∀ atom ∈ s.elements, op.absorbs atom = false := by
  cases h with
  | fixed hassociative _ _ _ =>
      rw [hyes] at hassociative
      cases hassociative
  | padded _ hlist harguments habsorbs _ _ _ _ =>
      unfold arguments at hlist
      split at hlist
      · split at hlist
        · cases hlist
        · rename_i heq _ _
          cases heq
          cases hlist
          exact ⟨harguments.symm, habsorbs⟩
      · rename_i hno
        exact absurd rfl (hno s mark)

/-- A call whose parameters are typed and of different names comes about just as well for another
list of as many arguments, if there is nothing in it to simplify and it suits the parameters. -/
theorem Calls.exists_of_suits (evaluate' : GuardEvaluator) {argument argument' : Atom}
    {arguments' : List Atom} {bound : Bindings}
    (h : op.Calls evaluate argument parameters arguments bound)
    (htyped : ∀ atom ∈ parameters, ∃ name, atom.IsTyped name)
    (hdistinct : (parameters.filterMap variableName?).Nodup)
    (harguments : (op.arguments argument').result = .ok arguments')
    (hlength : arguments'.length = arguments.length)
    (hsimplify : op.properties.isAssociative = true → op.simplify arguments' = arguments')
    (habsorbs : op.properties.isAssociative = true → ∀ atom ∈ arguments', op.absorbs atom = false)
    (hsuits : List.Forall₂ Suits parameters arguments') :
    ∃ bound', op.Calls evaluate' argument' parameters arguments' bound' := by
  have hfound := @exists_mem_matchAll_typed evaluate' .empty _ _ htyped hdistinct
    (fun name _ => NameMap.find?_empty name) hsuits
  rcases @bindParameters_ok op evaluate' _ _ hfound with ⟨bound', hbound'⟩
  refine ⟨bound', ?_⟩
  cases h with
  | fixed hassociative _ hparameters _ =>
      exact .fixed hassociative harguments hparameters hbound'
  | padded hassociative _ _ _ hlone hidentity hparameters _ =>
      refine .padded hassociative harguments (hsimplify hassociative).symm (habsorbs hassociative)
        (hlength ▸ hlone) (fun hnone => hidentity ?_) ?_ hbound'
      · rw [← List.length_eq_zero_iff, ← hlength, hnone, List.length_nil]
      · rw [hlength]
        exact paddedParameters_of_typed hparameters htyped

end Operator

end

/-- The operator has nothing to do for its application to an argument: it evaluates nothing, the
argument is a list that carries what it declares, and its parameters, which are typed and of
different names, are bound to the elements of that list as they are. -/
structure Operator.Stands (among : Atom → Prop) (op : Operator Atom) (argument : Atom) : Prop where
  native : op.native = none
  carries : argument.Carries op.properties
  calls : ∃ evaluate parameters bound s mark, argument = .sequence s mark ∧
    op.Calls evaluate argument parameters s.elements bound ∧
    (∀ parameter ∈ parameters, (∃ name, parameter.IsTyped name) ∧ among parameter ∧
      among parameter.type) ∧
    (parameters.filterMap variableName?).Nodup

end Equational
