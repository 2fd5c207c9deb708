import Equational.Proofs.PatternOrder

/-!
# The order of commutative subjects

Where the order of the subjects does not matter, neither do the positions at which
elimination takes constants away, nor the order in which the subjects that are left
are tried.  Of two orders of the subjects elimination leaves the same patterns, and
subjects that are the same up to their order; and to every arrangement of the ones
there is an arrangement of the others, run by run.
-/

namespace Equational

open Atom Elimination

theorem FindEqual.eq_nil_iff {found other : List Bindings} (h : FindEqual (· ∈ found) (· ∈ other)) :
    found = [] ↔ other = [] := by
  rw [List.eq_nil_iff_forall_not_mem, List.eq_nil_iff_forall_not_mem]
  constructor
  · intro hnone equal hequal
    rcases h.2 equal hequal with ⟨binds, hbinds, -⟩
    exact hnone binds hbinds
  · intro hnone binds hbinds
    rcases h.1 binds hbinds with ⟨equal, hequal, -⟩
    exact hnone equal hequal

section

variable {f : Option String → Option String} {evaluate : GuardEvaluator} {patterns : List Atom}
  {subjects others : Sequence Atom} {binds found : Bindings} {wrapper : Wrapper}

def ToldApart (f : Option String → Option String) (atoms : List Atom) : Prop :=
  ∀ a ∈ atoms, ∀ b ∈ atoms, a.fingerprint = b.fingerprint → Like f a b

namespace ToldApart

theorem faithful {list : List Atom} (h : ToldApart f (patterns ++ list)) :
    Faithful ((listElements evaluate patterns).map (·.pattern)) list := by
  rw [map_pattern_listElements]
  intro p hp s hs _ _ hfingerprint
  exact (h s (List.mem_append_right _ hs) p (List.mem_append_left _ hp) hfingerprint.symm).beq

theorem perm {list moved : List Atom} (h : ToldApart f (patterns ++ list))
    (hperm : list.Perm moved) : ToldApart f (patterns ++ moved) := by
  have hmem : ∀ atom, atom ∈ patterns ++ moved → atom ∈ patterns ++ list := fun atom hatom =>
    (hperm.append_left patterns).mem_iff.mpr hatom
  exact fun a ha b hb => h a (hmem a ha) b (hmem b hb)

theorem perm_subjectsLeft (evaluate : GuardEvaluator) {list moved : List Atom}
    (h : ToldApart f (patterns ++ list)) (hperm : list.Perm moved) :
    ((subjectsLeft (listElements evaluate patterns) moved).map (bare f)).Perm
      ((subjectsLeft (listElements evaluate patterns) list).map (bare f)) := by
  unfold subjectsLeft
  rw [map_pattern_listElements]
  exact (perm_skip_of_perm patterns (fun a ha b hb =>
    h a (List.mem_append_right _ ha) b (List.mem_append_right _ hb)) hperm).symm

end ToldApart

theorem patternsLeft_of_perm {list moved : List Atom} (hperm : list.Perm moved)
    (elements : List Element) : patternsLeft elements list = patternsLeft elements moved := by
  unfold patternsLeft
  rw [paired_of_perm hperm]

theorem goesOn_of_perm {list moved : List Atom} (hperm : list.Perm moved) {elements : List Element}
    (h : GoesOn elements list) : GoesOn elements moved := by
  unfold GoesOn
  rw [← patternsLeft_of_perm hperm]
  exact h

theorem exists_arrangement_of_perm (hevaluate : evaluate.Agree f evaluate)
    {associative : Bool} {list moved : List Atom} (h : ToldApart f (patterns ++ list))
    (hperm : list.Perm moved) {k : Nat} {runs : List (List Atom)}
    (hruns :
      Arrangement associative true (subjectsLeft (listElements evaluate patterns) list) k runs)
    (hfound : found ∈ (Element.matchAll (patternsLeft (listElements evaluate patterns) list)
      (runs.map wrapper.wrap) binds).alternatives) :
    ∃ runs', Arrangement associative true
        (subjectsLeft (listElements evaluate patterns) moved) k runs' ∧
      ∃ other ∈ (Element.matchAll (patternsLeft (listElements evaluate patterns) moved)
        (runs'.map wrapper.wrap) binds).alternatives, NameMap.Agree f found other := by
  rcases hruns.exists_like (h.perm_subjectsLeft evaluate hperm) with ⟨runs', hruns', hlike⟩
  refine ⟨runs', hruns', ?_⟩
  rw [← patternsLeft_of_perm hperm]
  rw [patternsLeft_listElements] at hfound ⊢
  exact Element.exists_of_like hevaluate (forall₂_wrap hlike) hfound

namespace Sequence

theorem exists_matchCommutative_of_subjects (hevaluate : evaluate.Agree f evaluate)
    (h : ToldApart f (patterns ++ subjects.elements))
    (hperm : subjects.elements.Perm others.elements)
    (hfound : found ∈
      (matchCommutative (listElements evaluate patterns) subjects binds).alternatives) :
    ∃ other ∈ (matchCommutative (listElements evaluate patterns) others binds).alternatives,
      NameMap.Agree f found other := by
  have hlengths : others.length = subjects.length := hperm.length_eq.symm
  by_cases hlength : (listElements evaluate patterns).length = subjects.length
  · rw [mem_matchCommutative_iff h.faithful hlength] at hfound
    rcases hfound with ⟨hgoes, order, horder, hfound⟩
    -- every pattern has one subject
    have hruns := arrangement_singles false true horder (by simp)
    rw [← map_wrap_singles (.sequence .none) order] at hfound
    rcases exists_arrangement_of_perm hevaluate h hperm hruns hfound with
      ⟨runs', hruns', other, hother, hagree⟩
    have hcount := (h.perm_subjectsLeft evaluate hperm).length_eq
    rw [List.length_map, List.length_map] at hcount
    rw [hruns'.eq_singles hcount, map_wrap_singles] at hother
    refine ⟨other, ?_, hagree⟩
    rw [mem_matchCommutative_iff (h.perm hperm).faithful (hlength.trans hlengths.symm)]
    exact ⟨goesOn_of_perm hperm hgoes, _, hruns'.perm, hother⟩
  · rw [matchCommutative, if_neg hlength, Traced.alternatives_failed] at hfound
    cases hfound

theorem exists_matchAssociativeCommutative_of_subjects (hevaluate : evaluate.Agree f evaluate)
    (h : ToldApart f (patterns ++ subjects.elements))
    (hperm : subjects.elements.Perm others.elements)
    (hfound : found ∈ (matchAssociativeCommutative wrapper (listElements evaluate patterns) subjects
      binds).alternatives) :
    ∃ other ∈ (matchAssociativeCommutative wrapper (listElements evaluate patterns) others
      binds).alternatives, NameMap.Agree f found other := by
  rw [mem_matchAssociativeCommutative_iff h.faithful] at hfound
  rcases hfound with ⟨hgoes, runs, hruns, hfound⟩
  rcases exists_arrangement_of_perm hevaluate h hperm hruns hfound with
    ⟨runs', hruns', other, hother, hagree⟩
  refine ⟨other, ?_, hagree⟩
  rw [mem_matchAssociativeCommutative_iff (h.perm hperm).faithful,
    ← patternsLeft_of_perm hperm]
  rw [← patternsLeft_of_perm hperm] at hother
  exact ⟨goesOn_of_perm hperm hgoes, runs', hruns', hother⟩

end Sequence

end

theorem Engine.agree_evaluate_of_none (engine : Engine)
    (hnatives : ∀ key call, engine.natives key call = none) :
    engine.evaluate.Agree (fun _ => none) engine.evaluate := by
  refine agree_evaluate ?_ rfl
  intro call call' _
  have hnone : ∀ call : Call, call.operator.native.bind (engine.natives · call) = none := by
    intro call
    cases call.operator.native with
    | none => rfl
    | some key => exact hnatives key call
  rw [hnone, hnone]
  exact .none

/-- Two sequences that have the same elements in different orders are matched alike by patterns
whose order does not matter, whether runs of them are wrapped up or not. -/
theorem Engine.findEqual_of_perm_subjects (engine : Engine)
    (hnatives : ∀ key call, engine.natives key call = none) (patterns : List Atom)
    (subjects others : Sequence Atom)
    (hcollision : NoCollision (· ∈ patterns ++ subjects.elements))
    (hperm : subjects.elements.Perm others.elements) (wrapper : Wrapper) (binds : Bindings) :
    let elements := listElements engine.evaluate patterns
    let commutative (s : Sequence Atom) := Sequence.matchCommutative elements s binds
    let both (s : Sequence Atom) := Sequence.matchAssociativeCommutative wrapper elements s binds
    (FindEqual (· ∈ (commutative subjects).alternatives) (· ∈ (commutative others).alternatives) ∧
      (commutative subjects).value.isFailed = (commutative others).value.isFailed) ∧
    FindEqual (· ∈ (both subjects).alternatives) (· ∈ (both others).alternatives) ∧
      (both subjects).value.isFailed = (both others).value.isFailed := by
  intro elements commutative both
  have hevaluate := engine.agree_evaluate_of_none hnatives
  have hsubjects : ToldApart (fun _ => none) (patterns ++ subjects.elements) :=
    fun a ha b hb => hcollision a b ha hb
  have hothers := hsubjects.perm hperm
  have hcommutative : FindEqual (· ∈ (commutative subjects).alternatives)
      (· ∈ (commutative others).alternatives) :=
    FindEqual.of_agrees _
      (fun _ => Sequence.exists_matchCommutative_of_subjects hevaluate hsubjects hperm)
      fun _ => Sequence.exists_matchCommutative_of_subjects hevaluate hothers hperm.symm
  have hboth : FindEqual (· ∈ (both subjects).alternatives) (· ∈ (both others).alternatives) :=
    FindEqual.of_agrees _
      (fun _ => Sequence.exists_matchAssociativeCommutative_of_subjects hevaluate hsubjects hperm)
      fun _ => Sequence.exists_matchAssociativeCommutative_of_subjects hevaluate hothers hperm.symm
  refine ⟨⟨hcommutative, ?_⟩, hboth, ?_⟩
  · rw [Bool.eq_iff_iff, Sequence.isFailed_matchCommutative_iff,
      Sequence.isFailed_matchCommutative_iff]
    exact hcommutative.eq_nil_iff
  · rw [Bool.eq_iff_iff, Sequence.isFailed_matchAssociativeCommutative_iff,
      Sequence.isFailed_matchAssociativeCommutative_iff]
    exact hboth.eq_nil_iff

theorem noCollision_numbers :
    NoCollision (· ∈ [integer 1, free "x" any, free "y" any] ++
      [integer 2, integer 1, integer 3, integer 2]) := by
  have hnodup : ([integer 1, free "x" any, free "y" any, integer 2, integer 3].map
      fingerprint).Nodup := by decide +kernel
  have hmem : ∀ atom, atom ∈ [integer 1, free "x" any, free "y" any] ++
      [integer 2, integer 1, integer 3, integer 2] →
        atom ∈ [integer 1, free "x" any, free "y" any, integer 2, integer 3] := by
    intro atom hatom
    simp only [List.cons_append, List.nil_append, List.mem_cons, List.not_mem_nil,
      or_false] at hatom
    rcases hatom with rfl | rfl | rfl | rfl | rfl | rfl | rfl <;> simp
  intro a b ha hb hfingerprint
  rw [List.inj_on_of_nodup_map hnodup (hmem a ha) (hmem b hb) hfingerprint]
  exact Like.refl b

/-- One is taken away at different positions, and one of the variables takes two numbers, in all
their orders. -/
theorem Engine.findEqual_of_perm_subjects_numbers :
    let elements := listElements idle.evaluate [integer 1, free "x" any, free "y" any]
    let both (list : List Atom) :=
      Sequence.matchAssociativeCommutative (.sequence .orderless) elements ⟨.orderless, list⟩ .empty
    FindEqual (· ∈ (both [integer 2, integer 1, integer 3, integer 2]).alternatives)
        (· ∈ (both [integer 2, integer 3, integer 2, integer 1]).alternatives) ∧
      (both [integer 2, integer 1, integer 3, integer 2]).value.isFailed = false := by
  intro elements both
  have hperm : [integer 2, integer 1, integer 3, integer 2].Perm
      [integer 2, integer 3, integer 2, integer 1] :=
    .cons _ ((List.Perm.swap _ _ _).trans (.cons _ (.swap _ _ _)))
  have h := idle.findEqual_of_perm_subjects (fun _ _ => rfl) _ ⟨.orderless, _⟩ ⟨.orderless, _⟩
    noCollision_numbers hperm (.sequence .orderless) .empty
  exact ⟨h.2.1, by decide +kernel⟩

end Equational
