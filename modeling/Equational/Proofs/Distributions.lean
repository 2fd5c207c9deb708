import Equational.Proofs.Composed
import Equational.Proofs.Listings

/-!
# Distributions of the subjects

Associative and commutative matching distributes the positions of the subjects
over the patterns: every pattern gets a block of positions, none of them empty,
and the order in a block matters.  A distribution is an order of the positions
together with the markers behind which it is cut, so there are
`n! * choose (n - 1) (k - 1)` of them, and the matcher tries each one once.
-/

namespace Equational

/-- Blocks of the first `n` numbers, one for each of `k` patterns. -/
structure IsDistribution (k n : Nat) (blocks : List (List Nat)) : Prop where
  length : blocks.length = k
  nonempty : ∀ block ∈ blocks, block ≠ []
  perm : blocks.flatten.Perm (List.range n)

/-- Distributions come in the order of their permutations, and for one permutation in the order
of their markers. -/
def Precedes (first second : List (List Nat)) : Prop :=
  first.flatten < second.flatten ∨
    (first.flatten = second.flatten ∧ Grouping.marksOf 0 first < Grouping.marksOf 0 second)

theorem Precedes.ne {first second : List (List Nat)} (h : Precedes first second) :
    first ≠ second := by
  rintro rfl
  rcases h with h | ⟨-, h⟩
  · exact List.lt_irrefl _ h
  · exact List.lt_irrefl _ h

/-- The distributions of `n` numbers over `k` patterns, as they are tried. -/
def distributions (k n : Nat) : LazyList (List (List Nat)) :=
  (Permutation.ofSize n).flatMap (Grouping.groupings k)

/-- What it means that every distribution is listed once, in order. -/
structure ListsDistributions (k n : Nat) (trials : List (List (List Nat))) : Prop where
  mem_iff : ∀ blocks, blocks ∈ trials ↔ IsDistribution k n blocks
  sorted : trials.Pairwise Precedes
  nodup : trials.Nodup
  length : trials.length = n.factorial * (n - 1).choose (k - 1)
  /-- The first distribution is the one of the identity and of the lowest markers. -/
  first : ∃ blocks, trials.head? = some blocks ∧ blocks.flatten = List.range n ∧
    Grouping.marksOf 0 blocks = Grouping.firstMarkers k

section

variable {k n : Nat} {order : List Nat}

theorem length_of_mem_ofSize (h : order ∈ (Permutation.ofSize n).toList) : order.length = n := by
  rw [(Permutation.mem_ofSize_iff.mp h).length_eq, List.length_range]

theorem toList_groupings {α : Type} (k : Nat) {list : List α} (h : list.length = n) :
    (Grouping.groupings k list).toList =
      (Grouping.markers k n).toList.map fun marks => Grouping.cut 0 marks list := by
  rw [Grouping.groupings, LazyList.toList_map, h]

theorem cut_of_mem_markers (hk : 0 < k) (hn : k < n) (h : order.length = n) {marks : List Nat}
    (hmarks : marks ∈ (Grouping.markers k n).toList) :
    (Grouping.cut 0 marks order).flatten = order ∧
      Grouping.marksOf 0 (Grouping.cut 0 marks order) = marks := by
  rcases (Grouping.mem_markers_iff hk hn).mp hmarks with ⟨-, hsorted, hbound⟩
  have hwithin : ∀ mark ∈ marks, 0 ≤ mark ∧ mark + 1 < 0 + order.length := by
    intro mark hmark
    have := hbound mark hmark
    omega
  have horder : order ≠ [] := List.length_pos_iff.mp (by omega)
  exact ⟨(Grouping.cut_spec hsorted hwithin horder).1, Grouping.marksOf_cut hsorted hwithin⟩

theorem mem_distributions_iff (hk : 0 < k) (hn : k < n) {blocks : List (List Nat)} :
    blocks ∈ (distributions k n).toList ↔ IsDistribution k n blocks := by
  rw [distributions, LazyList.toList_flatMap, List.mem_flatMap]
  constructor
  · rintro ⟨order, horder, hblocks⟩
    have hlength := length_of_mem_ofSize horder
    rcases (Grouping.mem_groupings_iff (by omega) (by omega)).mp hblocks with
      ⟨rfl, hcount, hnonempty⟩
    exact ⟨hcount, hnonempty, Permutation.mem_ofSize_iff.mp horder⟩
  · rintro ⟨hcount, hnonempty, hperm⟩
    have horder := Permutation.mem_ofSize_iff.mpr hperm
    have hlength := length_of_mem_ofSize horder
    refine ⟨blocks.flatten, horder, ?_⟩
    exact (Grouping.mem_groupings_iff (by omega) (by omega)).mpr ⟨rfl, hcount, hnonempty⟩

theorem sorted_distributions (hk : 0 < k) (hn : k < n) :
    (distributions k n).toList.Pairwise Precedes := by
  rw [distributions, LazyList.toList_flatMap, List.pairwise_flatMap]
  constructor
  · intro order horder
    have hlength := length_of_mem_ofSize horder
    rw [toList_groupings k hlength, List.pairwise_map]
    refine (Grouping.sorted_markers k n).imp_of_mem ?_
    intro first second hfirst hsecond hless
    rcases cut_of_mem_markers hk hn hlength hfirst with ⟨hflatten, hmarks⟩
    rcases cut_of_mem_markers hk hn hlength hsecond with ⟨hflatten', hmarks'⟩
    refine Or.inr ⟨hflatten.trans hflatten'.symm, ?_⟩
    rwa [hmarks, hmarks']
  · refine (Permutation.sorted_ofSize n).imp_of_mem ?_
    intro order other horder hother hless blocks hblocks blocks' hblocks'
    have hlength := length_of_mem_ofSize horder
    have hlength' := length_of_mem_ofSize hother
    have hflatten := ((Grouping.mem_groupings_iff (by omega) (by omega)).mp hblocks).1
    have hflatten' := ((Grouping.mem_groupings_iff (by omega) (by omega)).mp hblocks').1
    left
    rwa [hflatten, hflatten']

theorem length_distributions (hk : 0 < k) (hn : k < n) :
    (distributions k n).toList.length = n.factorial * (n - 1).choose (k - 1) := by
  have hgroupings : ∀ order ∈ (Permutation.ofSize n).toList,
      (Grouping.groupings k order).toList.length = (n - 1).choose (k - 1) := by
    intro order horder
    rw [toList_groupings k (length_of_mem_ofSize horder), List.length_map,
      Grouping.length_markers hk hn]
  rw [distributions, LazyList.toList_flatMap, List.length_flatMap,
    List.map_congr_left hgroupings, List.map_const', List.sum_replicate_nat,
    Permutation.length_ofSize]

theorem head?_distributions (hk : 0 < k) (hn : k < n) :
    (distributions k n).toList.head? =
      some (Grouping.cut 0 (Grouping.firstMarkers k) (List.range n)) := by
  rcases List.head?_eq_some_iff.mp (Permutation.head?_ofSize n) with ⟨others, hothers⟩
  rw [distributions, LazyList.toList_flatMap, hothers, List.flatMap_cons, List.head?_append,
    toList_groupings k List.length_range, List.head?_map, Grouping.head?_markers hk hn]
  rfl

theorem lists_distributions (hk : 0 < k) (hn : k < n) :
    ListsDistributions k n (distributions k n).toList where
  mem_iff _ := mem_distributions_iff hk hn
  sorted := sorted_distributions hk hn
  nodup := (sorted_distributions hk hn).imp Precedes.ne
  length := length_distributions hk hn
  first := by
    have hmarkers : Grouping.firstMarkers k ∈ (Grouping.markers k n).toList :=
      List.mem_of_head? (Grouping.head?_markers hk hn)
    exact ⟨_, head?_distributions hk hn, cut_of_mem_markers hk hn List.length_range hmarkers⟩

end

/-!
## Trials

Permuted subjects are cut where their positions are.  So the arrangements that are searched are
the distributions, one after the other.
-/

namespace Element

def distribute (wrapper : Wrapper) (subjects : List Atom) (blocks : List (List Nat)) : List Atom :=
  blocks.map fun block => wrapper.wrap (arrange subjects block)

def tryDistribution (wrapper : Wrapper) (elements : List Element) (subjects : List Atom)
    (binds : Bindings) (blocks : List (List Nat)) : Stream :=
  Stream.noticed (matchAll elements (distribute wrapper subjects blocks) binds).stream
    .groupingMatched

@[simp] theorem bindings_tryDistribution (wrapper : Wrapper) (elements : List Element)
    (subjects : List Atom) (binds : Bindings) (blocks : List (List Nat)) :
    (tryDistribution wrapper elements subjects binds blocks).bindings =
      (matchAll elements (distribute wrapper subjects blocks) binds).alternatives := by
  rw [tryDistribution, Stream.bindings_noticed, Traced.bindings_stream]

theorem groupings_arrange {subjects : List Atom} {order : List Nat}
    (h : order.Perm (List.range subjects.length)) (k : Nat) :
    (Grouping.groupings k (arrange subjects order)).toList =
      (Grouping.groupings k order).toList.map fun runs => runs.map (arrange subjects) := by
  have hlength : (arrange subjects order).length = order.length := by
    rw [(arrange_perm h).length_eq, h.length_eq, List.length_range]
  have hpositions : ∀ i ∈ order, (subjects[i]?).isSome = true := by
    intro i hi
    have hrange := List.mem_range.mp (h.subset hi)
    rw [List.getElem?_eq_getElem hrange]
    rfl
  rw [toList_groupings k hlength, toList_groupings k rfl, List.map_map]
  refine List.map_congr_left fun marks _ => ?_
  exact Grouping.cut_filterMap hpositions 0 marks

end Element

theorem LazyList.ext_toList {α : Type} {first second : LazyList α}
    (h : first.toList = second.toList) : first = second := by
  induction first generalizing second with
  | nil =>
      cases second with
      | nil => rfl
      | cons head tail => cases h
  | cons head tail ih =>
      cases second with
      | nil => cases h
      | cons other rest =>
          injection h with hhead htail
          subst hhead
          congr 1
          funext x
          exact ih x htail

namespace Sequence

open Element

theorem matchArrangements_eq {wrapper : Wrapper} {elements : List Element} {subjects : List Atom}
    {binds : Bindings} (hk : 0 < elements.length) (hn : elements.length < subjects.length) :
    matchArrangements wrapper elements subjects binds =
      Outcome.firstOf (.of .noArrangement)
        ((distributions elements.length subjects.length).flatMap
          (tryDistribution wrapper elements subjects binds)) := by
  unfold matchArrangements
  simp only
  rw [if_neg (by omega), if_neg (by omega), if_neg (by omega)]
  refine congrArg (Outcome.firstOf _) (LazyList.ext_toList ?_)
  rw [distributions, LazyList.toList_flatMap, LazyList.toList_flatMap, LazyList.toList_flatMap,
    List.flatMap_assoc]
  apply List.flatMap_congr
  intro order horder
  rw [matchGroupings, LazyList.toList_flatMap,
    groupings_arrange (Permutation.mem_ofSize_iff.mp horder), List.flatMap_map]
  apply List.flatMap_congr
  intro blocks _
  rw [tryDistribution, distribute, List.map_map]
  rfl

theorem alternatives_matchArrangements {wrapper : Wrapper} {elements : List Element}
    {subjects : List Atom} {binds : Bindings} (hk : 0 < elements.length)
    (hn : elements.length < subjects.length) :
    (matchArrangements wrapper elements subjects binds).alternatives =
      (distributions elements.length subjects.length).toList.flatMap fun blocks =>
        (matchAll elements (distribute wrapper subjects blocks) binds).alternatives := by
  rw [matchArrangements_eq hk hn, Outcome.alternatives_firstOf, Stream.bindings_flatMap]
  simp only [bindings_tryDistribution]

end Sequence

/-!
## Free variables
-/

namespace Element

theorem length_alternatives_free {evaluate : GuardEvaluator} {names : List String}
    {unknowns subjects : List Atom} {binds : Bindings}
    (hunknowns : List.Forall₂ Atom.IsFree names unknowns) (hdistinct : names.Nodup)
    (hunbound : ∀ name ∈ names, binds.find? name = none)
    (hlength : unknowns.length = subjects.length) :
    (matchAll (Atom.listElements evaluate unknowns) subjects binds).alternatives.length = 1 := by
  induction hunknowns generalizing subjects binds with
  | nil =>
      rw [List.length_eq_zero_iff.mp hlength.symm]
      rfl
  | @cons name unknown names unknowns hfree _ ih =>
      cases subjects with
      | nil => cases hlength
      | cons subject subjects =>
          rw [List.nodup_cons] at hdistinct
          have hrest : unknowns.length = subjects.length := by simpa using hlength
          rw [Atom.listElements_cons, alternatives_matchAll_cons, Matcher.alternatives_watched,
            Atom.alternatives_search_unbound hfree (hunbound name List.mem_cons_self)]
          split
          · rw [List.flatMap_singleton]
            exact ih hdistinct.2
              (fun other hother => hunbound other (List.mem_cons_of_mem _ hother))
              hrest
          · rw [List.flatMap_singleton]
            refine ih hdistinct.2 ?_ hrest
            intro other hother
            have hne : other ≠ name := by
              rintro rfl
              exact hdistinct.1 hother
            rw [NameMap.find?_insert_of_ne _ _ hne]
            exact hunbound other (List.mem_cons_of_mem _ hother)

end Element

namespace Sequence

open Element

/-- Associative and commutative matching is exact: if elimination leaves fewer patterns than
subjects, but at least one, then every distribution is tried once and in order, what is found is
what some distribution yields, and free variables take every distribution. -/
theorem matchAssociativeCommutative_exact {wrapper : Wrapper} {patterns elements : List Element}
    {subjects : Sequence Atom} {atoms : List Atom} {binds : Bindings}
    (hleft : (eliminateConstants patterns subjects).value = .ok (elements, atoms))
    (hk : 0 < elements.length) (hn : elements.length < atoms.length) :
    let k := elements.length
    let n := atoms.length
    let outcome := matchAssociativeCommutative wrapper patterns subjects binds
    ListsDistributions k n (distributions k n).toList ∧
      outcome = Outcome.firstOf (.of .noArrangement)
        ((distributions k n).flatMap (tryDistribution wrapper elements atoms binds)) ∧
      (∀ found, found ∈ outcome.alternatives ↔ ∃ blocks, IsDistribution k n blocks ∧
        found ∈ (matchAll elements (distribute wrapper atoms blocks) binds).alternatives) ∧
      ∀ (evaluate : GuardEvaluator) (names : List String) (unknowns : List Atom),
        elements = Atom.listElements evaluate unknowns →
        List.Forall₂ Atom.IsFree names unknowns → names.Nodup →
        (∀ name ∈ names, binds.find? name = none) →
        outcome.alternatives.length = n.factorial * (n - 1).choose (k - 1) := by
  intro k n outcome
  have hlists := lists_distributions hk hn
  have houtcome : outcome = matchArrangements wrapper elements atoms binds := by
    change (eliminateConstants patterns subjects).andThen _ = _
    have hevents : (eliminateConstants patterns subjects).events = [] := by
      unfold eliminateConstants at hleft ⊢
      simp only at hleft ⊢
      split at hleft
      · rfl
      · split at hleft
        · cases hleft
        · cases hleft
    unfold Traced.andThen
    rw [hleft, hevents]
    rfl
  refine ⟨hlists, houtcome.trans (matchArrangements_eq hk hn), ?_, ?_⟩
  · intro found
    rw [houtcome, alternatives_matchArrangements hk hn, List.mem_flatMap]
    exact exists_congr fun blocks => and_congr_left fun _ => hlists.mem_iff blocks
  · rintro evaluate names unknowns rfl hunknowns hdistinct hunbound
    have hone : ∀ blocks ∈ (distributions k n).toList,
        (matchAll (Atom.listElements evaluate unknowns) (distribute wrapper atoms blocks)
          binds).alternatives.length = 1 := by
      intro blocks hblocks
      refine length_alternatives_free hunknowns hdistinct hunbound ?_
      rw [distribute, List.length_map, ((hlists.mem_iff blocks).mp hblocks).length,
        ← Atom.length_listElements evaluate unknowns]
    rw [houtcome, alternatives_matchArrangements hk hn, List.length_flatMap,
      List.map_congr_left hone, List.map_const', List.sum_replicate_nat, Nat.mul_one,
      hlists.length]

/-- Two variables share three numbers out in twelve ways. -/
theorem exact_of_two_variables :
    (matchAssociativeCommutative (.sequence .none)
      (Atom.listElements (fun _ atom => .value atom) [.free "x" .any, .free "y" .any])
      ⟨.none, [.integer 1, .integer 2, .integer 3]⟩ .empty).alternatives.length = 12 := by
  have hleft : (eliminateConstants
      (Atom.listElements (fun _ atom => .value atom) [.free "x" .any, .free "y" .any])
      ⟨.none, [.integer 1, .integer 2, .integer 3]⟩).value =
        .ok (Atom.listElements (fun _ atom => .value atom) [.free "x" .any, .free "y" .any],
          [.integer 1, .integer 2, .integer 3]) := rfl
  rcases @matchAssociativeCommutative_exact (.sequence .none) _ _ _ _ .empty hleft (by decide)
    (by decide) with ⟨-, -, -, hcount⟩
  exact hcount (fun _ atom => .value atom) ["x", "y"] [.free "x" .any, .free "y" .any] rfl
    (.cons ⟨_, _, rfl, rfl⟩ (.cons ⟨_, _, rfl, rfl⟩ .nil)) (by decide) (fun _ _ => rfl)

end Sequence

end Equational
