import Mathlib.Data.List.Induction
import Mathlib.Data.List.Nodup
import Equational.Proofs.Cursors
import Equational.Proofs.Listings

/-!
# From one permutation to the next

Among the permutations of a list, the least one above it keeps what stands in
front of the pivot, the last element that is smaller than the one behind it.
The pivot gives way to the least greater element behind it, and the others
follow in ascending order.  As the elements behind the pivot descend, an
exchange and a reversal bring this about.  So a cursor that starts with the
identity answers all permutations, in lexicographic order.
-/

namespace Equational

namespace Permutation

open Checked

/-!
## Ascending and descending orders

No permutation of an ascending list is below it, and none of a descending list is above it.  With
the pivot in the place of the least greater element, what follows still descends, so that nothing
lies between a list and its successor.
-/

theorem not_lt_of_ascending {list other : List Nat} (h : list.Pairwise (· ≤ ·))
    (hperm : other.Perm list) : ¬other < list := by
  induction list generalizing other with
  | nil => exact List.not_lt_nil _
  | cons a rest ih =>
      cases other with
      | nil => cases hperm.length_eq
      | cons b others =>
          rw [List.pairwise_cons] at h
          rw [List.cons_lt_cons_iff]
          rintro (hless | ⟨rfl, hless⟩)
          · rcases List.mem_cons.mp (hperm.subset List.mem_cons_self) with rfl | hb
            · exact Nat.lt_irrefl _ hless
            · exact absurd (h.1 b hb) (Nat.not_le.mpr hless)
          · exact ih h.2 hperm.cons_inv hless

theorem not_gt_of_descending {list other : List Nat} (h : list.Pairwise (· ≥ ·))
    (hperm : other.Perm list) : ¬list < other := by
  induction list generalizing other with
  | nil =>
      rw [List.perm_nil.mp hperm]
      exact List.lt_irrefl _
  | cons a rest ih =>
      cases other with
      | nil => cases hperm.length_eq
      | cons b others =>
          rw [List.pairwise_cons] at h
          rw [List.cons_lt_cons_iff]
          rintro (hless | ⟨rfl, hless⟩)
          · rcases List.mem_cons.mp (hperm.subset List.mem_cons_self) with rfl | hb
            · exact Nat.lt_irrefl _ hless
            · exact absurd (h.1 b hb) (Nat.not_le.mpr hless)
          · exact ih h.2 hperm.cons_inv hless

section

variable {pivot exchanged : Nat} {above below : List Nat}

theorem descending_exchange (h : (above ++ exchanged :: below).Pairwise (· ≥ ·))
    (hexchanged : pivot < exchanged) (hbelow : ∀ a ∈ below, a ≤ pivot) :
    (above ++ pivot :: below).Pairwise (· ≥ ·) := by
  rw [List.pairwise_append, List.pairwise_cons] at h ⊢
  refine ⟨h.1, ⟨hbelow, h.2.1.2⟩, fun a ha b hb => ?_⟩
  have hab := h.2.2 a ha exchanged List.mem_cons_self
  rcases List.mem_cons.mp hb with rfl | hb
  · omega
  · exact h.2.2 a ha b (List.mem_cons_of_mem _ hb)

theorem exchange_perm (pivot : Nat) (above : List Nat) (exchanged : Nat) (below : List Nat) :
    (exchanged :: (above ++ pivot :: below).reverse).Perm
      (pivot :: (above ++ exchanged :: below)) := by
  refine ((List.reverse_perm _).cons _).trans ?_
  exact ((List.perm_middle.cons _).trans (.swap _ _ _)).trans (List.perm_middle.symm.cons _)

/-- No permutation lies between a list that descends behind its pivot and what the exchange and the
reversal make of it. -/
theorem not_between {front other : List Nat}
    (hdescends : (above ++ exchanged :: below).Pairwise (· ≥ ·)) (hexchanged : pivot < exchanged)
    (hbelow : ∀ a ∈ below, a ≤ pivot)
    (hperm : other.Perm (front ++ pivot :: (above ++ exchanged :: below)))
    (hless : front ++ pivot :: (above ++ exchanged :: below) < other) :
    ¬other < front ++ exchanged :: (above ++ pivot :: below).reverse := by
  intro hbetween
  rcases exists_append_of_between front hless hbetween with ⟨rest, rfl, hlower, hupper⟩
  have hperm := (List.perm_append_left_iff front).mp hperm
  cases rest with
  | nil => cases hperm.length_eq
  | cons a rest =>
      rw [List.cons_lt_cons_iff] at hlower hupper
      rcases hlower with hlower | ⟨rfl, hlower⟩
      · -- an element above the pivot is not below the one that the pivot is exchanged with
        have ha : a ∈ above ++ exchanged :: below :=
          (List.mem_cons.mp (hperm.subset List.mem_cons_self)).resolve_left (Nat.ne_of_gt hlower)
        have hleast : exchanged ≤ a := by
          rcases List.mem_append.mp ha with ha | ha
          · exact (List.pairwise_append.mp hdescends).2.2 a ha exchanged List.mem_cons_self
          · rcases List.mem_cons.mp ha with rfl | ha
            · exact Nat.le_refl _
            · exact absurd (hbelow a ha) (Nat.not_le.mpr hlower)
        rcases hupper with hupper | ⟨rfl, hupper⟩
        · exact Nat.lt_irrefl _ (Nat.lt_of_lt_of_le hupper hleast)
        · have hrest : rest.Perm (above ++ pivot :: below).reverse :=
            (hperm.trans (exchange_perm pivot above a below).symm).cons_inv
          refine not_lt_of_ascending ?_ hrest hupper
          rw [List.pairwise_reverse]
          exact descending_exchange hdescends hexchanged hbelow
      · exact not_gt_of_descending hdescends hperm.cons_inv hlower

end

/-!
## The successor

From a descending end on, the search to the left comes to the front of the list or to the pivot.
There is an element above the pivot behind it, and the last one is the least.
-/

theorem descent_cases (front : List Nat) {last : List Nat} (hne : last ≠ [])
    (hlast : last.Pairwise (· ≥ ·)) :
    (descent (front ++ last) front.length = .ok 0 ∧ (front ++ last).Pairwise (· ≥ ·)) ∨
      ∃ before pivot first rest, front ++ last = before ++ pivot :: first :: rest ∧
        pivot < first ∧ (first :: rest).Pairwise (· ≥ ·) ∧
        descent (front ++ last) front.length = .ok (before.length + 1) := by
  induction front using List.reverseRecOn generalizing last with
  | nil => exact .inl ⟨rfl, hlast⟩
  | append_singleton front a ih =>
      cases last with
      | nil => exact absurd rfl hne
      | cons b rest =>
          have hlist : front ++ [a] ++ b :: rest = front ++ a :: b :: rest := by simp
          have hhere : read (front ++ a :: b :: rest) (front.length + 1) = .ok b := by
            simp [Checked.read]
          rw [hlist, List.length_append, List.length_singleton, descent, read_append, hhere]
          by_cases hle : b ≤ a
          · have hlonger : (a :: b :: rest).Pairwise (· ≥ ·) := by
              refine List.pairwise_cons.mpr ⟨fun c hc => ?_, hlast⟩
              rcases List.mem_cons.mp hc with rfl | hc
              · exact hle
              · exact Nat.le_trans ((List.pairwise_cons.mp hlast).1 c hc) hle
            simp only [bind, Except.bind, hle, if_true]
            exact ih (List.cons_ne_nil _ _) hlonger
          · refine .inr ⟨front, a, b, rest, rfl, Nat.not_le.mp hle, hlast, ?_⟩
            simp only [bind, Except.bind, hle, if_false]

theorem lastAbove_eq (front upper : List Nat) {pivot first : Nat} {lower : List Nat}
    (hfirst : upper.head? = some first) (hpivot : pivot < first)
    (hlower : ∀ a ∈ lower, a ≤ pivot) :
    ∃ above exchanged below, upper ++ lower = above ++ exchanged :: below ∧ pivot < exchanged ∧
      (∀ a ∈ below, a ≤ pivot) ∧
      lastAbove (front ++ pivot :: (upper ++ lower)) front.length (front.length + upper.length) =
        .ok (front.length + 1 + above.length) := by
  induction upper using List.reverseRecOn generalizing lower with
  | nil => cases hfirst
  | append_singleton upper c ih =>
      have hlist : upper ++ [c] ++ lower = upper ++ c :: lower := by simp
      have hhere : read (front ++ pivot :: (upper ++ c :: lower))
          (front.length + upper.length + 1) = .ok c := by
        have hsplit : front ++ pivot :: (upper ++ c :: lower) =
            (front ++ pivot :: upper) ++ c :: lower := by simp
        have hlength : front.length + upper.length + 1 = (front ++ pivot :: upper).length := by
          rw [List.length_append, List.length_cons]
          omega
        rw [hsplit, hlength, read_append]
      rw [hlist, List.length_append, List.length_singleton, ← Nat.add_assoc, lastAbove, hhere,
        read_append]
      by_cases hle : c ≤ pivot
      · have hupper : upper.head? = some first := by
          cases upper with
          | nil =>
              cases hfirst
              exact absurd hpivot (Nat.not_lt.mpr hle)
          | cons a rest => exact hfirst
        simp only [bind, Except.bind, hle, if_true]
        exact ih hupper (List.forall_mem_cons.mpr ⟨hle, hlower⟩)
      · refine ⟨upper, c, lower, rfl, Nat.not_le.mp hle, hlower, ?_⟩
        simp only [bind, Except.bind, hle, if_false]
        rw [Nat.add_right_comm]

theorem isNext_exchange (before : List Nat) {pivot exchanged : Nat} {above below : List Nat}
    (hdescends : (above ++ exchanged :: below).Pairwise (· ≥ ·)) (hexchanged : pivot < exchanged)
    (hbelow : ∀ a ∈ below, a ≤ pivot) :
    IsNext (·.Perm (before ++ pivot :: (above ++ exchanged :: below)))
      (before ++ pivot :: (above ++ exchanged :: below))
      (some (before ++ exchanged :: (above ++ pivot :: below).reverse)) := by
  refine ⟨(exchange_perm pivot above exchanged below).append_left before, ?_, ?_⟩
  · exact List.append_left_lt (List.cons_lt_cons_iff.mpr (.inl hexchanged))
  · exact fun other hperm hless => not_between hdescends hexchanged hbelow hperm hless

/-- The search for the next order never leaves the list, and comes to the least permutation above
it, if there is one. -/
theorem exists_successor_eq (order : List Nat) :
    ∃ answer, successor order = .ok answer ∧ IsNext (·.Perm order) order answer := by
  have hnone : order.Pairwise (· ≥ ·) → IsNext (·.Perm order) order none := fun h other hperm =>
    not_gt_of_descending h hperm
  by_cases hshort : order.length < 2
  · refine ⟨none, if_pos hshort, hnone ?_⟩
    match order with
    | [] => exact .nil
    | [a] => exact List.pairwise_singleton _ _
  · rcases List.eq_nil_or_concat order with rfl | ⟨front, last, horder⟩
    · exact absurd Nat.two_pos hshort
    · rw [List.concat_eq_append] at horder
      have hlength : minus order.length 1 = .ok front.length := by
        rw [minus_of_le (by omega), horder, List.length_append, List.length_singleton,
          Nat.add_sub_cancel]
      unfold successor
      rw [if_neg hshort, hlength]
      rcases descent_cases front (List.cons_ne_nil last []) (List.pairwise_singleton _ _) with
        ⟨hdescent, hdescends⟩ | ⟨before, pivot, first, rest, hsplit, hpivot, hdescends, hdescent⟩
      · rw [← horder] at hdescent hdescends
        refine ⟨none, ?_, hnone hdescends⟩
        simp only [bind, Except.bind, hdescent, if_true]
      · rw [← horder] at hdescent hsplit
        rcases lastAbove_eq before (first :: rest) rfl hpivot (List.forall_mem_nil _) with
          ⟨above, exchanged, below, hrest, hexchanged, hbelow, habove⟩
        have hlast : front.length = before.length + (first :: rest).length := by
          have := congrArg List.length (horder.symm.trans hsplit)
          simp only [List.length_append, List.length_cons, List.length_nil] at this ⊢
          omega
        rw [List.append_nil] at hrest habove
        rw [← hsplit, ← hlast] at habove
        rw [hrest] at hsplit hdescends
        have hnext := isNext_exchange before hdescends hexchanged hbelow
        have hswap := swap_append before pivot above exchanged below
        rw [← hsplit] at hnext hswap
        refine ⟨_, ?_, hnext⟩
        have hpivotAt : minus (before.length + 1) 1 = .ok before.length := rfl
        simp only [bind, Except.bind, hdescent, Nat.add_one_ne_zero, if_false, hpivotAt, habove,
          hswap, reverseFrom_append_cons]
        rfl

/-!
## The cursor

The successor of a listed permutation is the one that is listed behind it.  So a cursor that has
come to a permutation answers those behind it, one after the other.
-/

theorem next_started {order : List Nat} {answer : Option (List Nat)}
    (h : successor order = .ok answer) :
    Cursor.next ⟨order, true, false⟩ =
      .ok (answer, answer.elim ⟨order, true, true⟩ fun next => ⟨next, true, false⟩) := by
  cases answer <;> simp [Cursor.next, h, bind, Except.bind, pure, Except.pure]

theorem successor_of_listed {n : Nat} {front rest : List (List Nat)} {order : List Nat}
    (h : (ofSize n).toList = front ++ order :: rest) : successor order = .ok rest.head? := by
  have horder : order.Perm (List.range n) :=
    mem_ofSize_iff.mp (h ▸ List.mem_append_right _ List.mem_cons_self)
  have hamong : ∀ other : List Nat, other.Perm order ↔ other ∈ front ++ order :: rest := by
    intro other
    rw [← h, mem_ofSize_iff]
    exact ⟨fun hother => hother.trans horder, fun hother => hother.trans horder.symm⟩
  rcases exists_successor_eq order with ⟨answer, hanswer, hnext⟩
  rw [hanswer, hnext.eq_head? hamong (h ▸ sorted_ofSize n)]

theorem enumerates_of_listed {n : Nat} (front : List (List Nat)) {rest : List (List Nat)}
    {order : List Nat}
    (h : (ofSize n).toList = front ++ order :: rest) :
    Enumerates Cursor.next ⟨order, true, false⟩ rest := by
  induction rest generalizing front order with
  | nil => exact enumerates_nil (next_started (successor_of_listed h)) rfl
  | cons following rest ih =>
      refine .cons (next_started (successor_of_listed h)) (ih (front ++ [order]) ?_)
      rw [h, List.append_assoc, List.singleton_append]

/-- The cursor answers all permutations, each of them once, from the identity on and in
lexicographic order; it never fails, and answers nothing after the last. -/
theorem enumerates_ofSize (n : Nat) :
    Enumerates Cursor.next (Cursor.ofSize n) (ofSize n).toList ∧
      (∀ order, order ∈ (ofSize n).toList ↔ order.Perm (List.range n)) ∧
      (ofSize n).toList.Nodup ∧ (ofSize n).toList.Pairwise (· < ·) ∧
      (ofSize n).toList.head? = some (List.range n) ∧
      (ofSize n).toList.length = n.factorial := by
  refine ⟨?_, fun order => mem_ofSize_iff, ?_, sorted_ofSize n, head?_ofSize n, length_ofSize n⟩
  · rcases List.head?_eq_some_iff.mp (head?_ofSize n) with ⟨rest, hrest⟩
    rw [hrest]
    exact .cons rfl (enumerates_of_listed [] hrest)
  · refine (sorted_ofSize n).imp fun hless => ?_
    rintro rfl
    exact List.lt_irrefl _ hless

end Permutation

end Equational
