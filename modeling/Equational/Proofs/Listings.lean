import Mathlib.Data.Nat.Choose.Basic
import Equational.Proofs.Enumeration

/-!
# The order of the listings

Orders and groupings are listed in the lexicographic order of their positions
and of their markers.  A listing that goes strictly upwards lists nothing twice,
and as it is known what is listed, so is how often: a list of `n` elements has
`n!` orders, and `count` of `width` numbers are listed once for each choice.
-/

namespace Equational

/-!
## Orders
-/

namespace Permutation

variable {α : Type}

@[simp] theorem map_fst_selections (list : List α) : (selections list).map Prod.fst = list := by
  induction list with
  | nil => rfl
  | cons a rest ih =>
      simp only [selections, List.map_cons, List.map_map]
      exact congrArg (a :: ·) ih

@[simp] theorem length_selections (list : List α) : (selections list).length = list.length := by
  rw [← List.length_map Prod.fst, map_fst_selections]

theorem sublist_of_mem_selections {list others : List α} {a : α}
    (h : (a, others) ∈ selections list) : others.Sublist list := by
  rcases mem_selections_iff.mp h with ⟨front, back, rfl, rfl⟩
  exact List.Sublist.append_left (List.sublist_cons_self a back) front

theorem length_of_mem_selections {list others : List α} {a : α}
    (h : (a, others) ∈ selections list) : others.length + 1 = list.length := by
  rcases mem_selections_iff.mp h with ⟨front, back, rfl, rfl⟩
  simp only [List.length_append, List.length_cons]
  omega

theorem sorted_ordersOf {n : Nat} {list : List Nat} (h : list.Pairwise (· < ·)) :
    (ordersOf n list).toList.Pairwise (· < ·) := by
  induction n generalizing list with
  | zero => exact List.pairwise_singleton _ _
  | succ n ih =>
      simp only [ordersOf, LazyList.toList_flatMap, LazyList.toList_ofList, LazyList.toList_map]
      rw [List.pairwise_flatMap]
      constructor
      · rintro ⟨a, others⟩ hmem
        refine (ih (h.sublist (sublist_of_mem_selections hmem))).map _ ?_
        intro first second hless
        exact List.cons_lt_cons_iff.mpr (Or.inr ⟨rfl, hless⟩)
      · have hfirst : (selections list).Pairwise fun left right => left.1 < right.1 := by
          rw [← List.pairwise_map, map_fst_selections]
          exact h
        refine hfirst.imp ?_
        intro left right hless first hmem second hmem'
        rcases List.mem_map.mp hmem with ⟨_, -, rfl⟩
        rcases List.mem_map.mp hmem' with ⟨_, -, rfl⟩
        exact List.cons_lt_cons_iff.mpr (Or.inl hless)

theorem length_ordersOf {n : Nat} {list : List α} (h : list.length = n) :
    (ordersOf n list).toList.length = n.factorial := by
  induction n generalizing list with
  | zero => rfl
  | succ n ih =>
      have htail : ∀ chosen ∈ selections list,
          ((ordersOf n chosen.2).toList.map (chosen.1 :: ·)).length = n.factorial := by
        rintro ⟨a, others⟩ hmem
        have hlength : others.length = n := by
          have := length_of_mem_selections hmem
          omega
        rw [List.length_map]
        exact ih hlength
      simp only [ordersOf, LazyList.toList_flatMap, LazyList.toList_ofList, LazyList.toList_map]
      rw [List.length_flatMap, List.map_congr_left htail, List.map_const', List.sum_replicate_nat,
        length_selections, h, Nat.factorial_succ]

theorem head?_ordersOf {n : Nat} {list : List α} (h : list.length = n) :
    (ordersOf n list).toList.head? = some list := by
  induction n generalizing list with
  | zero =>
      rw [List.length_eq_zero_iff.mp h]
      rfl
  | succ n ih =>
      cases list with
      | nil => cases h
      | cons a rest =>
          have hrest := @ih rest (by simpa using h)
          simp only [ordersOf, selections, LazyList.toList_flatMap, LazyList.toList_ofList,
            LazyList.toList_map, List.flatMap_cons]
          rw [List.head?_append, List.head?_map, hrest]
          rfl

theorem sorted_ofSize (n : Nat) : (ofSize n).toList.Pairwise (· < ·) :=
  sorted_ordersOf List.pairwise_lt_range

theorem length_ofSize (n : Nat) : (ofSize n).toList.length = n.factorial := by
  rw [ofSize, orders, length_ordersOf rfl, List.length_range]

theorem head?_ofSize (n : Nat) : (ofSize n).toList.head? = some (List.range n) :=
  head?_ordersOf rfl

theorem mem_ofSize_iff {n : Nat} {order : List Nat} :
    order ∈ (ofSize n).toList ↔ order.Perm (List.range n) :=
  mem_orders_iff

end Permutation

/-!
## Groupings

The markers of runs that a list was cut into are those that it was cut behind.
-/

namespace Grouping

variable {α : Type}

theorem sorted_ascending (count low width : Nat) :
    (ascending count low width).toList.Pairwise (· < ·) := by
  induction width generalizing count low with
  | zero =>
      unfold ascending
      split
      · exact List.pairwise_singleton _ _
      · exact List.Pairwise.nil
  | succ width ih =>
      cases count with
      | zero => exact List.pairwise_singleton _ _
      | succ count =>
          simp only [ascending, LazyList.toList_append, LazyList.toList_map]
          rw [List.pairwise_append]
          refine ⟨?_, ih (count + 1) (low + 1), ?_⟩
          · refine (ih count (low + 1)).map _ ?_
            intro first second hless
            exact List.cons_lt_cons_iff.mpr (Or.inr ⟨rfl, hless⟩)
          · -- the lists that begin with the lowest number come before all others
            intro first hfirst second hsecond
            rcases List.mem_map.mp hfirst with ⟨_, -, rfl⟩
            rcases mem_ascending_iff.mp hsecond with ⟨hlength, -, hbound⟩
            cases second with
            | nil => cases hlength
            | cons mark rest =>
                have hmark := hbound mark List.mem_cons_self
                exact List.cons_lt_cons_iff.mpr (Or.inl (by omega))

theorem length_ascending (count low width : Nat) :
    (ascending count low width).toList.length = width.choose count := by
  induction width generalizing count low with
  | zero =>
      cases count with
      | zero => rfl
      | succ count => rfl
  | succ width ih =>
      cases count with
      | zero => simp [ascending]
      | succ count =>
          simp only [ascending, LazyList.toList_append, LazyList.toList_map, List.length_append,
            List.length_map, ih]
          rw [Nat.choose_succ_succ]

theorem head?_ascending {count width : Nat} (low : Nat) (h : count ≤ width) :
    (ascending count low width).toList.head? = some (List.range' low count) := by
  induction width generalizing count low with
  | zero =>
      rw [Nat.le_zero.mp h]
      rfl
  | succ width ih =>
      cases count with
      | zero => rfl
      | succ count =>
          simp only [ascending, LazyList.toList_append, LazyList.toList_map]
          rw [List.head?_append, List.head?_map, ih (low + 1) (by omega)]
          rfl

theorem marksOf_cut {position : Nat} {marks : List Nat} {list : List α}
    (hsorted : marks.Pairwise (· < ·))
    (hbound : ∀ mark ∈ marks, position ≤ mark ∧ mark + 1 < position + list.length) :
    marksOf position (cut position marks list) = marks := by
  induction marks generalizing position list with
  | nil => rfl
  | cons mark rest ih =>
      rw [List.pairwise_cons] at hsorted
      have hmark := hbound mark List.mem_cons_self
      have hlength : (list.take (mark + 1 - position)).length = mark + 1 - position := by
        rw [List.length_take]
        omega
      have hrest := @ih (mark + 1) (list.drop (mark + 1 - position)) hsorted.2 (by
        intro other hother
        have := hsorted.1 other hother
        have := hbound other (List.mem_cons_of_mem _ hother)
        rw [List.length_drop]
        omega)
      -- there is always a run behind the first one
      cases hcut : cut (mark + 1) rest (list.drop (mark + 1 - position)) with
      | nil =>
          cases rest with
          | nil => cases hcut
          | cons next rest => cases hcut
      | cons next runs =>
          rw [hcut] at hrest
          have hposition : position + (mark + 1 - position) = mark + 1 := by omega
          rw [cut, hcut, marksOf, hlength, hposition, hrest, Nat.add_sub_cancel]

theorem mem_markers_iff {runs n : Nat} (hruns : 0 < runs) (hn : runs < n) {marks : List Nat} :
    marks ∈ (markers runs n).toList ↔
      marks.length = runs - 1 ∧ marks.Pairwise (· < ·) ∧ ∀ mark ∈ marks, mark + 1 < n := by
  rw [markers, if_neg (by omega), mem_ascending_iff]
  refine and_congr_right fun _ => and_congr_right fun _ => forall₂_congr fun mark _ => ?_
  omega

theorem sorted_markers (runs n : Nat) : (markers runs n).toList.Pairwise (· < ·) := by
  unfold markers
  split
  · exact List.Pairwise.nil
  · exact sorted_ascending _ _ _

theorem length_markers {runs n : Nat} (hruns : 0 < runs) (hn : runs < n) :
    (markers runs n).toList.length = (n - 1).choose (runs - 1) := by
  rw [markers, if_neg (by omega), length_ascending]

theorem head?_markers {runs n : Nat} (hruns : 0 < runs) (hn : runs < n) :
    (markers runs n).toList.head? = some (firstMarkers runs) := by
  rw [markers, if_neg (by omega), head?_ascending 0 (by omega), firstMarkers, List.range_eq_range']

section

variable {β : Type} {f : α → Option β} {list : List α}

theorem take_drop_filterMap (h : ∀ a ∈ list, (f a).isSome = true) (size : Nat) :
    (list.filterMap f).take size = (list.take size).filterMap f ∧
      (list.filterMap f).drop size = (list.drop size).filterMap f := by
  induction list generalizing size with
  | nil => simp
  | cons a rest ih =>
      rcases Option.isSome_iff_exists.mp (h a List.mem_cons_self) with ⟨b, hb⟩
      have hrest := ih fun a ha => h a (List.mem_cons_of_mem _ ha)
      cases size with
      | zero => simp
      | succ size =>
          rw [List.filterMap_cons_some hb, List.take_succ_cons, List.take_succ_cons,
            List.filterMap_cons_some hb, List.drop_succ_cons, List.drop_succ_cons,
            (hrest size).1]
          exact ⟨rfl, (hrest size).2⟩

theorem cut_filterMap (h : ∀ a ∈ list, (f a).isSome = true) (position : Nat)
    (marks : List Nat) :
    cut position marks (list.filterMap f) = (cut position marks list).map (List.filterMap f) := by
  induction marks generalizing position list with
  | nil => rfl
  | cons mark rest ih =>
      rcases take_drop_filterMap h (mark + 1 - position) with ⟨htake, hdrop⟩
      rw [cut, cut, List.map_cons, htake, hdrop, ih fun a ha => h a (List.mem_of_mem_drop ha)]

end

end Grouping

end Equational
