import Equational.Proofs.Alternatives
import Equational.Proofs.Elimination
import Equational.Proofs.Enumeration

/-!
# Arrangements of the subjects

What the matchers for lists search is an arrangement: a run of the subjects for
every pattern, none of them empty.  Laws of the subjects say whether runs may
be long and whether their order matters.  Elimination gives some patterns runs
of one subject beforehand; as these patterns bind nothing, what is found for
the others is found for an arrangement of all subjects.
-/

namespace Equational

theorem exists_of_mem_forall₂ {α β : Type} {R : α → β → Prop} {list : List α} {other : List β}
    (h : List.Forall₂ R list other) {a : α} (ha : a ∈ list) : ∃ b ∈ other, R a b := by
  induction h with
  | nil => cases ha
  | cons hfirst _ ih =>
      rcases List.mem_cons.mp ha with rfl | ha
      · exact ⟨_, List.mem_cons_self, hfirst⟩
      · rcases ih ha with ⟨b, hb, hR⟩
        exact ⟨b, List.mem_cons_of_mem _ hb, hR⟩

/-!
## Interleaving
-/

namespace Elimination

variable {α β : Type}

/-- The list with some elements where flags are set, and others where they are not. -/
def merge : List Bool → List α → List α → List α
  | true :: flags, a :: picked, skipped => a :: merge flags picked skipped
  | false :: flags, picked, a :: skipped => a :: merge flags picked skipped
  | _, _, _ => []

theorem length_pick_add_length_skip {flags : List Bool} {list : List α}
    (hlength : flags.length = list.length) :
    (pick flags list).length + (skip flags list).length = list.length := by
  rw [← List.length_append, (pick_append_skip_perm hlength).length_eq]

theorem length_pick_congr {flags : List Bool} {list : List α} {other : List β}
    (hlist : flags.length = list.length) (hother : flags.length = other.length) :
    (pick flags list).length = (pick flags other).length := by
  induction flags generalizing list other with
  | nil => rfl
  | cons flag flags ih =>
      cases list with
      | nil => cases hlist
      | cons a rest =>
          cases other with
          | nil => cases hother
          | cons b others =>
              have htail := @ih rest others (by simpa using hlist)
                (by simpa using hother)
              cases flag with
              | true => simpa [pick] using htail
              | false => simpa [pick] using htail

theorem length_skip_congr {flags : List Bool} {list : List α} {other : List β}
    (hlist : flags.length = list.length) (hother : flags.length = other.length) :
    (skip flags list).length = (skip flags other).length := by
  have hpick := length_pick_congr hlist hother
  have hfirst := length_pick_add_length_skip hlist
  have hsecond := length_pick_add_length_skip hother
  omega

theorem merge_spec {flags : List Bool} {list : List α} {picked skipped : List β}
    (hlength : flags.length = list.length)
    (hpicked : picked.length = (pick flags list).length)
    (hskipped : skipped.length = (skip flags list).length) :
    (merge flags picked skipped).length = list.length ∧
      pick flags (merge flags picked skipped) = picked ∧
      skip flags (merge flags picked skipped) = skipped := by
  induction flags generalizing list picked skipped with
  | nil =>
      rw [List.length_eq_zero_iff.mp hlength.symm] at *
      rw [List.length_eq_zero_iff.mp hpicked, List.length_eq_zero_iff.mp hskipped]
      exact ⟨rfl, rfl, rfl⟩
  | cons flag flags ih =>
      cases list with
      | nil => cases hlength
      | cons a rest =>
          have hrest : flags.length = rest.length := by simpa using hlength
          cases flag with
          | true =>
              cases picked with
              | nil => cases hpicked
              | cons b picked =>
                  rcases @ih _ picked skipped hrest
                    (by simpa [pick] using hpicked) hskipped with ⟨hmerge, hpick, hskip⟩
                  exact ⟨by simp [merge, hmerge], by simp [merge, pick, hpick],
                    by simp [merge, skip, hskip]⟩
          | false =>
              cases skipped with
              | nil => cases hskipped
              | cons b skipped =>
                  rcases @ih _ picked skipped hrest hpicked
                    (by simpa [skip] using hskipped) with ⟨hmerge, hpick, hskip⟩
                  exact ⟨by simp [merge, hmerge], by simp [merge, pick, hpick],
                    by simp [merge, skip, hskip]⟩

end Elimination

/-!
## Elements that bind nothing

A constant takes its equals and binds nothing, so it can be left out together with its subject.
-/

namespace Element

open Elimination

def AcceptsEquals (element : Element) : Prop :=
  element.pattern.isConstant = true → ∀ subject, (subject == element.pattern) = true →
    ∀ binds, (element.matcher subject binds).alternatives = [binds]

theorem alternatives_matchAll_skip {flags : List Bool} {elements : List Element}
    {subjects : List Atom} (helements : flags.length = elements.length)
    (hsubjects : flags.length = subjects.length)
    (h : List.Forall₂ (fun element subject =>
      ∀ binds, (Element.matcher element subject binds).alternatives = [binds])
      (pick flags elements) (pick flags subjects)) (binds : Bindings) :
    (matchAll elements subjects binds).alternatives =
      (matchAll (skip flags elements) (skip flags subjects) binds).alternatives := by
  induction flags generalizing elements subjects binds with
  | nil =>
      rw [List.length_eq_zero_iff.mp helements.symm, List.length_eq_zero_iff.mp hsubjects.symm]
      rfl
  | cons flag flags ih =>
      cases elements with
      | nil => cases helements
      | cons element elements =>
          cases subjects with
          | nil => cases hsubjects
          | cons subject subjects =>
              have helements' : flags.length = elements.length := by simpa using helements
              have hsubjects' : flags.length = subjects.length := by simpa using hsubjects
              rw [alternatives_matchAll_cons]
              cases flag with
              | true =>
                  rcases List.forall₂_cons.mp h with ⟨hfirst, hrest⟩
                  rw [hfirst binds]
                  simpa [skip] using ih helements' hsubjects' hrest binds
              | false =>
                  simp only [skip, alternatives_matchAll_cons]
                  exact List.flatMap_congr fun found _ => ih helements' hsubjects' h found

theorem forall₂_of_acceptsEquals {elements : List Element} {chosen : List Atom}
    (haccepts : ∀ element ∈ elements, element.AcceptsEquals)
    (hchosen : List.Forall₂ (fun s p => p.isConstant = true ∧ (s == p) = true) chosen
      (elements.map (·.pattern))) :
    List.Forall₂ (fun element subject =>
      ∀ binds, (Element.matcher element subject binds).alternatives = [binds]) elements chosen := by
  induction elements generalizing chosen with
  | nil =>
      cases hchosen
      exact List.Forall₂.nil
  | cons element rest ih =>
      cases hchosen with
      | cons hfirst hrest =>
          exact List.Forall₂.cons (haccepts element List.mem_cons_self hfirst.1 _ hfirst.2)
            (ih (fun e he => haccepts e (List.mem_cons_of_mem _ he)) hrest)

end Element

namespace Atom

open Matcher

variable (evaluate : GuardEvaluator)

theorem alternatives_search_of_beq {pattern subject : Atom} (hconstant : pattern.isConstant = true)
    (h : (subject == pattern) = true) (binds : Bindings) :
    (search evaluate pattern subject binds).alternatives = [binds] := by
  have hsame : (pattern == subject) = true := beq_symm h
  have hleaf : (ofLeaf pattern subject binds).alternatives = [binds] := by
    rw [ofLeaf, if_pos hsame]
    rfl
  have hstructure : ∀ type parts : Matcher,
      (ofStructure pattern type parts subject binds).alternatives = [binds] := by
    intro type parts
    simp only [ofStructure, hconstant, hsame, if_true, Traced.alternatives_found]
  cases pattern with
  | typeUniverse mark => exact hleaf
  | root name mark =>
      rw [search_root]
      split
      · rfl
      · exact hleaf
  | literal value type mark => exact hleaf
  | operator op mark => exact hleaf
  | var name type guard index mark =>
      have hindex : (index != 0) = true := hconstant
      rw [search_var, if_pos hindex, ofBound, if_pos hsame]
      rfl
  | lambda parameter body mark =>
      rw [search_lambda]
      exact hstructure _ _
  | sequence s mark =>
      cases s
      rw [search_sequence]
      exact hstructure _ _
  | propertySet properties mark =>
      rw [search_propertySet]
      exact hstructure _ _
  | application head argument bound mark =>
      rw [search_application]
      exact hstructure _ _

theorem listElements_eq_map (list : List Atom) :
    listElements evaluate list = list.map (element evaluate) := by
  induction list with
  | nil => rfl
  | cons atom rest ih =>
      rw [listElements_cons, ih]
      rfl

@[simp] theorem length_listElements (list : List Atom) :
    (listElements evaluate list).length = list.length := by
  rw [listElements_eq_map, List.length_map]

@[simp] theorem map_pattern_listElements (list : List Atom) :
    (listElements evaluate list).map (·.pattern) = list := by
  rw [listElements_eq_map, List.map_map]
  exact List.map_id list

theorem acceptsEquals_of_mem_listElements {list : List Atom} {element : Element}
    (h : element ∈ listElements evaluate list) : element.AcceptsEquals := by
  rw [listElements_eq_map, List.mem_map] at h
  rcases h with ⟨atom, -, rfl⟩
  intro hconstant subject hsubject binds
  exact alternatives_search_of_beq evaluate hconstant hsubject binds

end Atom

/-!
## Orders and groupings as arrangements

Without associativity there are as many patterns as subjects, and runs that are as many as the
subjects have one subject each.  So orders and groupings are arrangements of one kind.
-/

/-- Runs of the subjects, one for each of so many patterns, where the subjects obey some
laws. -/
structure Arrangement (associative commutative : Bool) (subjects : List Atom) (k : Nat)
    (runs : List (List Atom)) : Prop where
  length : runs.length = k
  nonempty : ∀ run ∈ runs, run ≠ []
  perm : runs.flatten.Perm subjects
  ordered : commutative = false → runs.flatten = subjects
  single : associative = false → ∀ run ∈ runs, run.length = 1

def singles (list : List Atom) : List (List Atom) := list.map ([·])

@[simp] theorem flatten_singles (list : List Atom) : (singles list).flatten = list := by
  induction list with
  | nil => rfl
  | cons atom rest ih =>
      change atom :: (singles rest).flatten = atom :: rest
      rw [ih]

@[simp] theorem length_singles (list : List Atom) : (singles list).length = list.length :=
  List.length_map _

@[simp] theorem map_wrap_singles (wrapper : Wrapper) (list : List Atom) :
    (singles list).map wrapper.wrap = list := by
  rw [singles, List.map_map]
  exact List.map_id list

theorem arrangement_singles (associative commutative : Bool) {order subjects : List Atom}
    (hperm : order.Perm subjects) (hordered : commutative = false → order = subjects) :
    Arrangement associative commutative subjects subjects.length (singles order) where
  length := by rw [length_singles, hperm.length_eq]
  nonempty := by simp [singles]
  perm := by rwa [flatten_singles]
  ordered := by rwa [flatten_singles]
  single := by simp [singles]

theorem length_le_length_flatten {runs : List (List Atom)} (hruns : ∀ run ∈ runs, run ≠ []) :
    runs.length ≤ runs.flatten.length := by
  induction runs with
  | nil => simp
  | cons run rest ih =>
      have hrun := List.length_pos_iff.mpr (hruns run List.mem_cons_self)
      have htail := ih fun r hr => hruns r (List.mem_cons_of_mem _ hr)
      rw [List.flatten_cons, List.length_append, List.length_cons]
      omega

theorem eq_singles {runs : List (List Atom)} (hruns : ∀ run ∈ runs, run ≠ [])
    (hlength : runs.flatten.length ≤ runs.length) : runs = singles runs.flatten := by
  induction runs with
  | nil => rfl
  | cons run rest ih =>
      have hrun := List.length_pos_iff.mpr (hruns run List.mem_cons_self)
      have htail : ∀ r ∈ rest, r ≠ [] := fun r hr => hruns r (List.mem_cons_of_mem _ hr)
      have hrest := length_le_length_flatten htail
      rw [List.flatten_cons, List.length_append, List.length_cons] at hlength
      rcases List.length_eq_one_iff.mp (show run.length = 1 by omega) with ⟨atom, rfl⟩
      change [atom] :: rest = [atom] :: singles rest.flatten
      rw [← ih htail (by omega)]

namespace Arrangement

variable {associative commutative : Bool} {subjects : List Atom} {k : Nat}
  {runs : List (List Atom)}

theorem le_length (h : Arrangement associative commutative subjects k runs) :
    k ≤ subjects.length := by
  rw [← h.length, ← h.perm.length_eq]
  exact length_le_length_flatten h.nonempty

theorem eq_singles (h : Arrangement associative commutative subjects k runs)
    (hk : subjects.length = k) : runs = singles runs.flatten := by
  apply Equational.eq_singles h.nonempty
  rw [h.perm.length_eq, h.length]
  exact Nat.le_of_eq hk

theorem run_cases (h : Arrangement associative commutative subjects k runs)
    (hk : associative = true → k ≠ 1) {run : List Atom} (hrun : run ∈ runs) :
    (∃ atom ∈ subjects, run = [atom]) ∨
      (associative = true ∧ 2 ≤ run.length ∧ run.length < subjects.length ∧
        run.Subperm subjects) := by
  have hsub : run.Subperm subjects :=
    (List.sublist_flatten_of_mem hrun).subperm.trans h.perm.subperm
  have hpos := List.length_pos_iff.mpr (h.nonempty run hrun)
  by_cases hone : run.length = 1
  · rcases List.length_eq_one_iff.mp hone with ⟨atom, rfl⟩
    exact Or.inl ⟨atom, hsub.subset List.mem_cons_self, rfl⟩
  · have hassociative : associative = true := by
      by_contra hno
      exact hone (h.single (by simpa using hno) run hrun)
    refine Or.inr ⟨hassociative, by omega, ?_, hsub⟩
    rcases List.append_of_mem hrun with ⟨front, back, hruns⟩
    have hfront := @length_le_length_flatten front fun r hr =>
      h.nonempty r (by rw [hruns]; simp [hr])
    have hback := @length_le_length_flatten back fun r hr =>
      h.nonempty r (by rw [hruns]; simp [hr])
    have hcount := h.length
    have hlength := h.perm.length_eq
    have hne := hk hassociative
    rw [hruns, List.length_append, List.length_cons] at hcount
    rw [hruns, List.flatten_append, List.flatten_cons, List.length_append,
      List.length_append] at hlength
    omega

theorem length_eq (h : Arrangement associative commutative subjects k runs)
    (hassociative : associative = false) : subjects.length = k := by
  have hsingle : ∀ rest : List (List Atom), (∀ run ∈ rest, run.length = 1) →
      rest.flatten.length = rest.length := by
    intro rest hrest
    induction rest with
    | nil => rfl
    | cons run rest ih =>
        rw [List.flatten_cons, List.length_append, hrest run List.mem_cons_self,
          ih fun r hr => hrest r (List.mem_cons_of_mem _ hr), List.length_cons, Nat.add_comm]
  rw [← h.length, ← h.perm.length_eq]
  exact hsingle runs (h.single hassociative)

end Arrangement

namespace Element

theorem mem_matchOrders_iff {elements : List Element} {subjects : List Atom}
    {binds found : Bindings} :
    found ∈ (matchOrders elements subjects binds).bindings ↔
      ∃ order, order.Perm subjects ∧ found ∈ (matchAll elements order binds).alternatives := by
  rw [bindings_matchOrders, List.mem_flatMap]
  constructor
  · rintro ⟨order, horder, hfound⟩
    exact ⟨_, exists_mem_ofSize_iff.mp ⟨order, horder, rfl⟩, hfound⟩
  · rintro ⟨list, hperm, hfound⟩
    rcases exists_mem_ofSize_iff.mpr hperm with ⟨order, horder, rfl⟩
    exact ⟨order, horder, hfound⟩

theorem mem_matchGroupings_iff {wrapper : Wrapper} {elements : List Element}
    {subjects : List Atom} {binds found : Bindings} (hk : elements.length ≠ 0)
    (hn : elements.length < subjects.length) :
    found ∈ (matchGroupings wrapper elements subjects binds).bindings ↔
      ∃ runs : List (List Atom), (runs.flatten = subjects ∧ runs.length = elements.length ∧
          ∀ run ∈ runs, run ≠ []) ∧
        found ∈ (matchAll elements (runs.map wrapper.wrap) binds).alternatives := by
  simp only [bindings_matchGroupings, List.mem_flatMap, Grouping.mem_groupings_iff hk hn]

end Element

namespace Sequence

open Elimination

theorem mem_matchArrangements_iff {wrapper : Wrapper} {elements : List Element}
    {subjects : List Atom} {binds found : Bindings} :
    found ∈ (matchArrangements wrapper elements subjects binds).alternatives ↔
      ∃ runs, Arrangement true true subjects elements.length runs ∧
        found ∈ (Element.matchAll elements (runs.map wrapper.wrap) binds).alternatives := by
  by_cases hk : elements.length = 0
  · have helements := List.length_eq_zero_iff.mp hk
    subst helements
    unfold matchArrangements
    by_cases hn : subjects.length = 0
    · have hsubjects := List.length_eq_zero_iff.mp hn
      subst hsubjects
      simp only [List.length_nil, if_true]
      constructor
      · intro hfound
        exact ⟨[], ⟨rfl, by simp, List.Perm.nil, by simp, by simp⟩, hfound⟩
      · rintro ⟨runs, harrangement, hfound⟩
        have hruns := List.length_eq_zero_iff.mp harrangement.length
        subst hruns
        exact hfound
    · simp only [List.length_nil, if_true, hn, if_false, Traced.alternatives_failed,
        List.not_mem_nil, false_iff]
      rintro ⟨runs, harrangement, -⟩
      have hruns := List.length_eq_zero_iff.mp harrangement.length
      subst hruns
      exact hn harrangement.perm.length_eq.symm
  · unfold matchArrangements
    simp only [hk, if_false]
    by_cases hless : subjects.length < elements.length
    · rw [if_pos hless]
      simp only [Traced.alternatives_failed, List.not_mem_nil, false_iff]
      rintro ⟨runs, harrangement, -⟩
      exact Nat.not_lt.mpr harrangement.le_length hless
    · rw [if_neg hless]
      by_cases heq : elements.length = subjects.length
      · rw [if_pos heq, Outcome.alternatives_firstOf, Element.mem_matchOrders_iff]
        constructor
        · rintro ⟨order, hperm, hfound⟩
          refine ⟨singles order, ?_, by rwa [map_wrap_singles]⟩
          rw [heq]
          exact arrangement_singles true true hperm (by simp)
        · rintro ⟨runs, harrangement, hfound⟩
          rw [harrangement.eq_singles heq.symm, map_wrap_singles] at hfound
          exact ⟨runs.flatten, harrangement.perm, hfound⟩
      · rw [if_neg heq, Outcome.alternatives_firstOf, Stream.bindings_flatMap, List.mem_flatMap]
        constructor
        · rintro ⟨order, horder, hfound⟩
          have hperm := Element.exists_mem_ofSize_iff.mp ⟨order, horder, rfl⟩
          rw [Element.mem_matchGroupings_iff hk (by rw [hperm.length_eq]; omega)] at hfound
          rcases hfound with ⟨runs, ⟨hflatten, hlength, hruns⟩, hfound⟩
          exact ⟨runs, ⟨hlength, hruns, hflatten ▸ hperm, by simp, by simp⟩, hfound⟩
        · rintro ⟨runs, harrangement, hfound⟩
          rcases Element.exists_mem_ofSize_iff.mpr harrangement.perm with ⟨order, horder, harrange⟩
          refine ⟨order, horder, ?_⟩
          rw [harrange, Element.mem_matchGroupings_iff hk
            (by rw [harrangement.perm.length_eq]; omega)]
          exact ⟨runs, ⟨rfl, harrangement.length, harrangement.nonempty⟩, hfound⟩

end Sequence

/-!
## What elimination leaves to the search

As many patterns as subjects are taken away, and the search goes on with the others as long as no
constant without parts is among them.
-/

namespace Elimination

def patternsLeft (elements : List Element) (subjects : List Atom) : List Element :=
  skip (paired subjects (elements.map (·.pattern))) elements

def subjectsLeft (elements : List Element) (subjects : List Atom) : List Atom :=
  skip (paired (elements.map (·.pattern)) subjects) subjects

/-- No constant without parts is left, so that elimination lets the search go on. -/
def GoesOn (elements : List Element) (subjects : List Atom) : Prop :=
  ∀ element ∈ patternsLeft elements subjects,
    element.pattern.isConstant = true → element.pattern.isStructured = true

/-- As many patterns as subjects are taken away. -/
theorem length_patternsLeft_add {elements : List Element} {subjects : List Atom}
    (h : Faithful (elements.map (·.pattern)) subjects) :
    (patternsLeft elements subjects).length + subjects.length =
      (subjectsLeft elements subjects).length + elements.length := by
  rcases exists_chosen h with ⟨chosen, hperm, hchosen⟩
  have hpicked := hperm.length_eq.symm.trans hchosen.length_eq
  rw [pick_map, List.length_map] at hpicked
  have helements := @length_pick_add_length_skip _
    (paired subjects (elements.map (·.pattern))) elements (by simp)
  have hsubjects := @length_pick_add_length_skip _
    (paired (elements.map (·.pattern)) subjects) subjects (by simp)
  unfold patternsLeft subjectsLeft
  omega

end Elimination

namespace Sequence

open Elimination

theorem eliminateConstants_of_goesOn {elements : List Element} {subjects : Sequence Atom}
    (h : Faithful (elements.map (·.pattern)) subjects.elements)
    (hgoes : GoesOn elements subjects.elements) :
    (eliminateConstants elements subjects).value =
      .ok (patternsLeft elements subjects.elements, subjectsLeft elements subjects.elements) := by
  refine eliminateConstants_ok h ?_
  intro pattern hmem
  rw [skip_map, List.mem_map] at hmem
  rcases hmem with ⟨element, helement, rfl⟩
  exact hgoes element helement

theorem eliminateConstants_of_not_goesOn {elements : List Element} {subjects : Sequence Atom}
    (h : Faithful (elements.map (·.pattern)) subjects.elements)
    (hgoes : ¬GoesOn elements subjects.elements) :
    ∃ failure, (eliminateConstants elements subjects).value = .error failure := by
  unfold GoesOn at hgoes
  push Not at hgoes
  rcases hgoes with ⟨element, helement, hconstant, hno⟩
  refine eliminateConstants_error h ⟨element.pattern, ?_, hconstant, by simpa using hno⟩
  rw [skip_map]
  exact List.mem_map_of_mem helement

theorem mem_matchAssociativeCommutative_iff {wrapper : Wrapper} {elements : List Element}
    {subjects : Sequence Atom} {binds found : Bindings}
    (h : Faithful (elements.map (·.pattern)) subjects.elements) :
    found ∈ (matchAssociativeCommutative wrapper elements subjects binds).alternatives ↔
      GoesOn elements subjects.elements ∧
      ∃ runs, Arrangement true true (subjectsLeft elements subjects.elements)
          (patternsLeft elements subjects.elements).length runs ∧
        found ∈ (Element.matchAll (patternsLeft elements subjects.elements)
          (runs.map wrapper.wrap) binds).alternatives := by
  unfold matchAssociativeCommutative
  rw [Traced.alternatives_andThen]
  by_cases hgoes : GoesOn elements subjects.elements
  · rw [eliminateConstants_of_goesOn h hgoes]
    simp only [mem_matchArrangements_iff, hgoes, true_and]
  · rcases eliminateConstants_of_not_goesOn h hgoes with ⟨failure, hfailure⟩
    rw [hfailure]
    simp [hgoes]

theorem mem_matchCommutative_iff {elements : List Element} {subjects : Sequence Atom}
    {binds found : Bindings} (h : Faithful (elements.map (·.pattern)) subjects.elements)
    (hlength : elements.length = subjects.length) :
    found ∈ (matchCommutative elements subjects binds).alternatives ↔
      GoesOn elements subjects.elements ∧
      ∃ order, order.Perm (subjectsLeft elements subjects.elements) ∧
        found ∈ (Element.matchAll (patternsLeft elements subjects.elements) order
          binds).alternatives := by
  unfold matchCommutative
  rw [if_pos hlength, Traced.alternatives_andThen]
  by_cases hgoes : GoesOn elements subjects.elements
  · rw [eliminateConstants_of_goesOn h hgoes]
    simp only [Outcome.alternatives_firstOf, Element.mem_matchOrders_iff, hgoes, true_and]
  · rcases eliminateConstants_of_not_goesOn h hgoes with ⟨failure, hfailure⟩
    rw [hfailure]
    simp [hgoes]

theorem mem_matchAssociative_iff {wrapper : Wrapper} {elements : List Element}
    {subjects : Sequence Atom} {binds found : Bindings} :
    found ∈ (matchAssociative wrapper elements subjects binds).alternatives ↔
      ∃ runs, Arrangement true false subjects.elements elements.length runs ∧
        found ∈ (Element.matchAll elements (runs.map wrapper.wrap) binds).alternatives := by
  have hsubjects : subjects.length = subjects.elements.length := rfl
  unfold matchAssociative
  by_cases heq : elements.length = subjects.length
  · rw [if_pos heq]
    constructor
    · intro hfound
      refine ⟨singles subjects.elements, ?_, by rwa [map_wrap_singles]⟩
      rw [heq, hsubjects]
      exact arrangement_singles true false (List.Perm.refl _) fun _ => rfl
    · rintro ⟨runs, harrangement, hfound⟩
      rwa [harrangement.eq_singles heq.symm, harrangement.ordered rfl, map_wrap_singles] at hfound
  · rw [if_neg heq]
    by_cases hfew : elements.length = 0 ∨ subjects.length < elements.length
    · rw [if_pos hfew]
      simp only [Traced.alternatives_failed, List.not_mem_nil, false_iff]
      rintro ⟨runs, harrangement, -⟩
      have hle := harrangement.le_length
      rcases hfew with hnone | hless
      · have hruns : runs = [] := List.length_eq_zero_iff.mp (harrangement.length.trans hnone)
        have hflatten := harrangement.ordered rfl
        rw [hruns, List.flatten_nil] at hflatten
        rw [hsubjects, ← hflatten] at heq
        exact heq hnone
      · exact Nat.not_lt.mpr hle hless
    · rw [if_neg hfew, Outcome.alternatives_firstOf,
        Element.mem_matchGroupings_iff (by omega) (by omega)]
      constructor
      · rintro ⟨runs, ⟨hflatten, hlength, hruns⟩, hfound⟩
        exact ⟨runs, ⟨hlength, hruns, by rw [hflatten], fun _ => hflatten, by simp⟩, hfound⟩
      · rintro ⟨runs, harrangement, hfound⟩
        exact ⟨runs, ⟨harrangement.ordered rfl, harrangement.length, harrangement.nonempty⟩, hfound⟩

/-!
## Matching the elements of sequences

Where the order matters, elements are matched with all arrangements of the subjects, and else what
elimination leaves is.  Either way, whatever is found is found for an arrangement of all subjects:
the eliminated patterns get the subjects that they were paired with.
-/

section

variable {wrapper : Wrapper} {elements : List Element} {subjects : Sequence Atom}
  {binds found : Bindings}

theorem mem_matchElements_iff (hcommutative : subjects.properties.isCommutative = false) :
    found ∈ (matchElements wrapper elements subjects binds).alternatives ↔
      ∃ runs, Arrangement subjects.properties.isAssociative false subjects.elements
          elements.length runs ∧
        found ∈ (Element.matchAll elements (runs.map wrapper.wrap) binds).alternatives := by
  have hsubjects : subjects.length = subjects.elements.length := rfl
  unfold matchElements
  simp only [hcommutative, Bool.false_eq_true, if_false]
  by_cases heq : elements.length = subjects.length
  · rw [if_pos heq]
    constructor
    · intro hfound
      refine ⟨singles subjects.elements, ?_, by rwa [map_wrap_singles]⟩
      rw [heq, hsubjects]
      exact arrangement_singles _ false (List.Perm.refl _) fun _ => rfl
    · rintro ⟨runs, harrangement, hfound⟩
      rwa [harrangement.eq_singles heq.symm, harrangement.ordered rfl, map_wrap_singles] at hfound
  · rw [if_neg heq]
    cases hassociative : subjects.properties.isAssociative with
    | true =>
        by_cases hless : elements.length < subjects.length
        · simp [hless, mem_matchAssociative_iff]
        · simp only [hless, decide_false, Bool.false_and, Bool.false_eq_true, if_false,
            Traced.alternatives_failed, List.not_mem_nil, false_iff]
          rintro ⟨runs, harrangement, -⟩
          have hle := harrangement.le_length
          omega
    | false =>
        simp only [Bool.and_false, Bool.false_eq_true, if_false, Traced.alternatives_failed,
          List.not_mem_nil, false_iff]
        rintro ⟨runs, harrangement, -⟩
        exact heq (harrangement.length_eq rfl).symm

theorem mem_matchElements_commutative_iff
    (hcommutative : subjects.properties.isCommutative = true)
    (h : Faithful (elements.map (·.pattern)) subjects.elements) :
    found ∈ (matchElements wrapper elements subjects binds).alternatives ↔
      GoesOn elements subjects.elements ∧
      ∃ runs, Arrangement subjects.properties.isAssociative true
          (subjectsLeft elements subjects.elements)
          (patternsLeft elements subjects.elements).length runs ∧
        found ∈ (Element.matchAll (patternsLeft elements subjects.elements)
          (runs.map wrapper.wrap) binds).alternatives := by
  have hleft := length_patternsLeft_add h
  have hsubjects : subjects.length = subjects.elements.length := rfl
  unfold matchElements
  simp only [hcommutative, if_true]
  by_cases heq : elements.length = subjects.length
  · rw [if_pos heq, mem_matchCommutative_iff h heq]
    constructor
    · rintro ⟨hgoes, order, hperm, hfound⟩
      refine ⟨hgoes, singles order, ?_, by rwa [map_wrap_singles]⟩
      rw [show (patternsLeft elements subjects.elements).length =
        (subjectsLeft elements subjects.elements).length by omega]
      exact arrangement_singles _ true hperm (by simp)
    · rintro ⟨hgoes, runs, harrangement, hfound⟩
      rw [harrangement.eq_singles (by omega), map_wrap_singles] at hfound
      exact ⟨hgoes, runs.flatten, harrangement.perm, hfound⟩
  · rw [if_neg heq]
    cases hassociative : subjects.properties.isAssociative with
    | true =>
        by_cases hless : elements.length < subjects.length
        · simp [hless, mem_matchAssociativeCommutative_iff h]
        · simp only [hless, decide_false, Bool.false_and, Bool.false_eq_true, if_false,
            Traced.alternatives_failed, List.not_mem_nil, false_iff]
          rintro ⟨-, runs, harrangement, -⟩
          have hle := harrangement.le_length
          omega
    | false =>
        simp only [Bool.and_false, Bool.false_eq_true, if_false, Traced.alternatives_failed,
          List.not_mem_nil, false_iff]
        rintro ⟨-, runs, harrangement, -⟩
        have hcount := harrangement.length_eq rfl
        omega

/-- An arrangement of what is left, with the subjects of eliminated patterns in their places. -/
def completed (flags : List Bool) (chosen : List Atom) (runs : List (List Atom)) :
    List (List Atom) :=
  merge flags (singles chosen) runs

theorem completed_spec {chosen : List Atom} {runs : List (List Atom)} {associative : Bool}
    (hchosen : chosen.Perm
      (pick (paired (elements.map (·.pattern)) subjects.elements) subjects.elements))
    (hlength : chosen.length =
      (pick (paired subjects.elements (elements.map (·.pattern))) elements).length)
    (h : Arrangement associative true (subjectsLeft elements subjects.elements)
      (patternsLeft elements subjects.elements).length runs) :
    let flags := paired subjects.elements (elements.map (·.pattern))
    Arrangement associative true subjects.elements elements.length
        (completed flags chosen runs) ∧
      pick flags (completed flags chosen runs) = singles chosen ∧
      skip flags (completed flags chosen runs) = runs := by
  intro flags
  have hflags : flags.length = elements.length := by simp [flags]
  rcases @merge_spec _ _ _ _ (singles chosen) runs hflags
    (by rw [length_singles, hlength]) h.length with ⟨hmerge, hpick, hskip⟩
  have hperm : (singles chosen ++ runs).Perm (merge flags (singles chosen) runs) := by
    have := @pick_append_skip_perm _ flags (merge flags (singles chosen) runs)
      (hflags.trans hmerge.symm)
    rwa [hpick, hskip] at this
  have hall : ∀ run ∈ merge flags (singles chosen) runs,
      run ∈ singles chosen ∨ run ∈ runs := fun run hrun =>
    List.mem_append.mp (hperm.mem_iff.mpr hrun)
  refine ⟨⟨hmerge, ?_, ?_, by simp, ?_⟩, hpick, hskip⟩
  · intro run hrun
    rcases hall run hrun with hsingle | hrun
    · rcases List.mem_map.mp hsingle with ⟨atom, -, rfl⟩
      exact List.cons_ne_nil _ _
    · exact h.nonempty run hrun
  · have hflatten := hperm.symm.flatten
    rw [List.flatten_append, flatten_singles] at hflatten
    exact hflatten.trans ((hchosen.append h.perm).trans (pick_append_skip_perm (by simp)))
  · intro hassociative run hrun
    rcases hall run hrun with hsingle | hrun
    · rcases List.mem_map.mp hsingle with ⟨atom, -, rfl⟩
      rfl
    · exact h.single hassociative run hrun

theorem length_pick_patterns :
    (pick (paired subjects.elements (elements.map (·.pattern))) (elements.map (·.pattern))).length =
      (pick (paired subjects.elements (elements.map (·.pattern))) elements).length := by
  rw [pick_map, List.length_map]

theorem exists_completed {runs : List (List Atom)} {associative : Bool}
    (hfaithful : Faithful (elements.map (·.pattern)) subjects.elements)
    (h : Arrangement associative true (subjectsLeft elements subjects.elements)
      (patternsLeft elements subjects.elements).length runs) :
    ∃ whole, Arrangement associative true subjects.elements elements.length whole ∧
      runs ⊆ whole := by
  rcases exists_chosen hfaithful with ⟨chosen, hperm, hchosen⟩
  rcases completed_spec hperm (hchosen.length_eq.trans length_pick_patterns) h with
    ⟨harrangement, -, hskip⟩
  exact ⟨_, harrangement, fun run hrun => mem_of_mem_skip (hskip ▸ hrun)⟩

/-- Whatever is found is found for an arrangement of all subjects, with nothing taken away. -/
theorem exists_arrangement (haccepts : ∀ element ∈ elements, element.AcceptsEquals)
    (hfaithful : subjects.properties.isCommutative = true →
      Faithful (elements.map (·.pattern)) subjects.elements)
    (hfound : found ∈ (matchElements wrapper elements subjects binds).alternatives) :
    ∃ runs, Arrangement subjects.properties.isAssociative subjects.properties.isCommutative
        subjects.elements elements.length runs ∧
      found ∈ (Element.matchAll elements (runs.map wrapper.wrap) binds).alternatives := by
  cases hcommutative : subjects.properties.isCommutative with
  | false => exact (mem_matchElements_iff hcommutative).mp hfound
  | true =>
      have h := hfaithful hcommutative
      rcases (mem_matchElements_commutative_iff hcommutative h).mp hfound with
        ⟨-, runs, hruns, hfound⟩
      rcases exists_chosen h with ⟨chosen, hperm, hchosen⟩
      rcases completed_spec hperm (hchosen.length_eq.trans length_pick_patterns) hruns with
        ⟨harrangement, hpick, hskip⟩
      refine ⟨_, harrangement, ?_⟩
      rw [@Element.alternatives_matchAll_skip
        (paired subjects.elements (elements.map (·.pattern))) _ _ (by simp)
        (by simp [harrangement.length])]
      · rw [skip_map, hskip]
        exact hfound
      · rw [pick_map, hpick, map_wrap_singles]
        rw [pick_map] at hchosen
        exact Element.forall₂_of_acceptsEquals
          (fun element hmem => haccepts element (mem_of_mem_pick hmem)) hchosen

end

end Sequence

end Equational
