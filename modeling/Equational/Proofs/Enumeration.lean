import Mathlib.Data.List.Perm.Basic
import Mathlib.Tactic.ByContra
import Equational.Matching.Associative

/-!
# What the enumerations list

The orders of a list are its permutations, and the groupings of a list are the
ways to write it as a concatenation of runs, none of them empty.
-/

namespace Equational

/-!
## Orders

Every permutation of the subjects is given by a permutation of their positions.
-/

namespace Permutation

variable {α : Type}

theorem mem_selections_iff {list : List α} {a : α} {others : List α} :
    (a, others) ∈ selections list ↔
      ∃ front back, list = front ++ a :: back ∧ others = front ++ back := by
  induction list generalizing others with
  | nil => simp [selections]
  | cons b rest ih =>
      simp only [selections, List.mem_cons, List.mem_map, Prod.mk.injEq, Prod.exists]
      constructor
      · rintro (⟨rfl, rfl⟩ | ⟨c, left, hmem, rfl, rfl⟩)
        · exact ⟨[], others, rfl, rfl⟩
        · rcases ih.mp hmem with ⟨front, back, rfl, rfl⟩
          exact ⟨b :: front, back, rfl, rfl⟩
      · rintro ⟨front, back, hlist, rfl⟩
        cases front with
        | nil =>
            injection hlist with hb hrest
            exact Or.inl ⟨hb.symm, hrest.symm⟩
        | cons c front =>
            injection hlist with hb hrest
            subst hb
            exact Or.inr ⟨a, front ++ back, ih.mpr ⟨front, back, hrest, rfl⟩, rfl, rfl⟩

theorem mem_ordersOf_iff {n : Nat} {list order : List α} (hn : list.length = n) :
    order ∈ (ordersOf n list).toList ↔ order.Perm list := by
  induction n generalizing list order with
  | zero =>
      have hnil : list = [] := List.eq_nil_of_length_eq_zero hn
      simp [ordersOf, hnil]
  | succ n ih =>
      simp only [ordersOf, LazyList.toList_flatMap, LazyList.toList_ofList,
        LazyList.toList_map, List.mem_flatMap, List.mem_map, Prod.exists]
      constructor
      · rintro ⟨a, others, hselect, tail, htail, rfl⟩
        rcases mem_selections_iff.mp hselect with ⟨front, back, rfl, rfl⟩
        have hlength : (front ++ back).length = n := by
          simp only [List.length_append, List.length_cons] at hn ⊢
          omega
        exact ((ih hlength).mp htail).cons a |>.trans List.perm_middle.symm
      · intro hperm
        cases order with
        | nil =>
            rw [← hperm.length_eq] at hn
            cases hn
        | cons a tail =>
            have hmem : a ∈ list := hperm.subset List.mem_cons_self
            rcases List.append_of_mem hmem with ⟨front, back, rfl⟩
            have hlength : (front ++ back).length = n := by
              simp only [List.length_append, List.length_cons] at hn ⊢
              omega
            have htail : tail.Perm (front ++ back) :=
              (hperm.trans List.perm_middle).cons_inv
            exact ⟨a, front ++ back, mem_selections_iff.mpr ⟨front, back, rfl, rfl⟩, tail,
              (ih hlength).mpr htail, rfl⟩

theorem mem_orders_iff {list order : List α} :
    order ∈ (orders list).toList ↔ order.Perm list :=
  mem_ordersOf_iff rfl

end Permutation

namespace Element

theorem arrange_eq_of_forall₂ {subjects list : List Atom} {order : List Nat}
    (h : List.Forall₂ (fun atom i => subjects[i]? = some atom) list order) :
    arrange subjects order = list := by
  induction h with
  | nil => rfl
  | cons hatom _ ih =>
      unfold arrange at ih ⊢
      rw [List.filterMap_cons, hatom, ih]

theorem forall₂_range (subjects : List Atom) :
    List.Forall₂ (fun atom i => subjects[i]? = some atom) subjects
      (List.range subjects.length) := by
  rw [List.forall₂_iff_get]
  constructor
  · simp
  · intro i hi _
    simp [List.getElem?_eq_getElem hi]

theorem arrange_perm {subjects : List Atom} {order : List Nat}
    (h : order.Perm (List.range subjects.length)) : (arrange subjects order).Perm subjects := by
  have hperm : (arrange subjects order).Perm
      (arrange subjects (List.range subjects.length)) := h.filterMap _
  rwa [arrange_eq_of_forall₂ (forall₂_range subjects)] at hperm

theorem exists_arrange {subjects list : List Atom} (h : list.Perm subjects) :
    ∃ order, order.Perm (List.range subjects.length) ∧ arrange subjects order = list := by
  rcases List.perm_comp_forall₂ h (forall₂_range subjects) with ⟨order, hlist, horder⟩
  exact ⟨order, horder, arrange_eq_of_forall₂ hlist⟩

theorem exists_mem_ofSize_iff {subjects list : List Atom} :
    (∃ order ∈ (Permutation.ofSize subjects.length).toList, arrange subjects order = list) ↔
      list.Perm subjects := by
  constructor
  · rintro ⟨order, horder, rfl⟩
    exact arrange_perm (Permutation.mem_orders_iff.mp horder)
  · intro h
    rcases exists_arrange h with ⟨order, horder, hlist⟩
    exact ⟨order, Permutation.mem_orders_iff.mpr horder, hlist⟩

end Element

/-!
## Groupings

Markers and runs determine each other, once the position of the first element
is given.
-/

namespace Grouping

variable {α : Type}

theorem mem_ascending_iff {count low width : Nat} {marks : List Nat} :
    marks ∈ (ascending count low width).toList ↔
      marks.length = count ∧ marks.Pairwise (· < ·) ∧
        ∀ mark ∈ marks, low ≤ mark ∧ mark < low + width := by
  induction width generalizing count low marks with
  | zero =>
      unfold ascending
      by_cases hcount : count = 0
      · subst hcount
        cases marks <;> simp
      · cases marks with
        | nil => simp [hcount, Ne.symm hcount]
        | cons mark rest =>
            simp only [hcount, if_false, LazyList.toList_nil, List.not_mem_nil, false_iff]
            rintro ⟨-, -, hbound⟩
            have := hbound mark List.mem_cons_self
            omega
  | succ width ih =>
      cases count with
      | zero =>
          cases marks <;> simp [ascending]
      | succ count =>
          simp only [ascending, LazyList.toList_append, LazyList.toList_map, List.mem_append,
            List.mem_map, ih]
          constructor
          · rintro (⟨rest, ⟨hlength, hsorted, hbound⟩, rfl⟩ | ⟨hlength, hsorted, hbound⟩)
            · refine ⟨by simp [hlength], List.pairwise_cons.mpr ⟨?_, hsorted⟩, ?_⟩
              · intro mark hmark
                have := hbound mark hmark
                omega
              · intro mark hmark
                rcases List.mem_cons.mp hmark with rfl | hmark
                · omega
                · have := hbound mark hmark
                  omega
            · refine ⟨hlength, hsorted, ?_⟩
              intro mark hmark
              have := hbound mark hmark
              omega
          · rintro ⟨hlength, hsorted, hbound⟩
            cases marks with
            | nil => cases hlength
            | cons mark rest =>
                rw [List.pairwise_cons] at hsorted
                have hmark := hbound mark List.mem_cons_self
                by_cases hlow : mark = low
                · subst hlow
                  refine Or.inl ⟨rest, ⟨by simpa using hlength, hsorted.2, ?_⟩, rfl⟩
                  intro other hother
                  have := hsorted.1 other hother
                  have := hbound other (List.mem_cons_of_mem _ hother)
                  omega
                · refine Or.inr ⟨hlength, List.pairwise_cons.mpr hsorted, ?_⟩
                  intro other hother
                  have := hbound other hother
                  rcases List.mem_cons.mp hother with rfl | hother
                  · omega
                  · have := hsorted.1 other hother
                    omega

/-- The markers behind which runs end, for runs whose first element has the given position. -/
def marksOf (position : Nat) : List (List α) → List Nat
  | [] | [_] => []
  | run :: next :: rest =>
      (position + run.length - 1) :: marksOf (position + run.length) (next :: rest)

theorem length_marksOf (position : Nat) (runs : List (List α)) :
    (marksOf position runs).length = runs.length - 1 := by
  fun_induction marksOf position runs with
  | case1 => rfl
  | case2 => rfl
  | case3 position run next rest ih =>
      simp [ih]

theorem marksOf_bound {position : Nat} {runs : List (List α)} (hruns : ∀ run ∈ runs, run ≠ []) :
    ∀ mark ∈ marksOf position runs,
      position ≤ mark ∧ mark + 1 < position + runs.flatten.length := by
  fun_induction marksOf position runs with
  | case1 => simp
  | case2 => simp
  | case3 position run next rest ih =>
      have hrun := List.length_pos_iff.mpr (hruns run List.mem_cons_self)
      have hnext := List.length_pos_iff.mpr (hruns next (by simp))
      intro mark hmark
      rw [List.flatten_cons, List.length_append]
      rcases List.mem_cons.mp hmark with rfl | hmark
      · rw [List.flatten_cons, List.length_append]
        omega
      · have := ih (fun r hr => hruns r (List.mem_cons_of_mem _ hr)) mark hmark
        omega

theorem marksOf_sorted {position : Nat} {runs : List (List α)}
    (hruns : ∀ run ∈ runs, run ≠ []) : (marksOf position runs).Pairwise (· < ·) := by
  fun_induction marksOf position runs with
  | case1 => exact List.Pairwise.nil
  | case2 => exact List.Pairwise.nil
  | case3 position run next rest ih =>
      have hrun := List.length_pos_iff.mpr (hruns run List.mem_cons_self)
      have htail : ∀ r ∈ next :: rest, r ≠ [] := fun r hr => hruns r (List.mem_cons_of_mem _ hr)
      refine List.pairwise_cons.mpr ⟨?_, ih htail⟩
      intro mark hmark
      have := marksOf_bound htail mark hmark
      omega

theorem cut_marksOf {position : Nat} {runs : List (List α)} (hnil : runs ≠ [])
    (hruns : ∀ run ∈ runs, run ≠ []) :
    cut position (marksOf position runs) runs.flatten = runs := by
  fun_induction marksOf position runs with
  | case1 => exact absurd rfl hnil
  | case2 position run => simp [cut]
  | case3 position run next rest ih =>
      have hrun := List.length_pos_iff.mpr (hruns run List.mem_cons_self)
      have hsize : position + run.length - 1 + 1 - position = run.length := by omega
      have hnext : position + run.length - 1 + 1 = position + run.length := by omega
      rw [cut, List.flatten_cons, hsize, hnext, List.take_left, List.drop_left,
        ih (by simp) fun r hr => hruns r (List.mem_cons_of_mem _ hr)]

/-- Cutting loses nothing and leaves no run empty, if the markers ascend within the list. -/
theorem cut_spec {position : Nat} {marks : List Nat} {list : List α}
    (hsorted : marks.Pairwise (· < ·))
    (hbound : ∀ mark ∈ marks, position ≤ mark ∧ mark + 1 < position + list.length)
    (hlist : list ≠ []) :
    (cut position marks list).flatten = list ∧
      (cut position marks list).length = marks.length + 1 ∧
      ∀ run ∈ cut position marks list, run ≠ [] := by
  induction marks generalizing position list with
  | nil =>
      simpa [cut] using hlist
  | cons mark rest ih =>
      rw [List.pairwise_cons] at hsorted
      have hmark := hbound mark List.mem_cons_self
      have hdrop : (list.drop (mark + 1 - position)).length =
          position + list.length - (mark + 1) := by
        rw [List.length_drop]
        omega
      have htail := @ih (mark + 1) (list.drop (mark + 1 - position)) hsorted.2
        (by
          intro other hother
          have := hsorted.1 other hother
          have := hbound other (List.mem_cons_of_mem _ hother)
          omega)
        (by
          rw [← List.length_pos_iff]
          omega)
      rw [cut]
      refine ⟨?_, by simp [htail.2.1], ?_⟩
      · rw [List.flatten_cons, htail.1, List.take_append_drop]
      · intro run hrun
        rcases List.mem_cons.mp hrun with rfl | hrun
        · rw [← List.length_pos_iff, List.length_take]
          omega
        · exact htail.2.2 run hrun

theorem mem_groupings_iff {k : Nat} {list : List α} {runs : List (List α)}
    (hk : k ≠ 0) (hn : k < list.length) :
    runs ∈ (groupings k list).toList ↔
      runs.flatten = list ∧ runs.length = k ∧ ∀ run ∈ runs, run ≠ [] := by
  have hlist : list ≠ [] := List.length_pos_iff.mp (by omega)
  have hmarkers : ¬(k = 0 ∨ list.length ≤ k) := by omega
  simp only [groupings, markers, if_neg hmarkers, LazyList.toList_map, List.mem_map,
    mem_ascending_iff]
  constructor
  · rintro ⟨marks, ⟨hlength, hsorted, hbound⟩, rfl⟩
    have hcut := @cut_spec _ 0 _ _ hsorted
      (by
        intro mark hmark
        have := hbound mark hmark
        omega) hlist
    refine ⟨hcut.1, ?_, hcut.2.2⟩
    rw [hcut.2.1, hlength]
    omega
  · rintro ⟨rfl, rfl, hruns⟩
    refine ⟨marksOf 0 runs, ⟨length_marksOf 0 runs, marksOf_sorted hruns, ?_⟩,
      cut_marksOf (fun h => hk (by rw [h]; rfl)) hruns⟩
    intro mark hmark
    have := marksOf_bound hruns mark hmark
    omega

end Grouping

end Equational
