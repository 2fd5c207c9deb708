import Mathlib.Data.List.Induction
import Equational.Proofs.Alternatives
import Equational.Proofs.Cursors
import Equational.Proofs.Listings

/-!
# From one grouping to the next

Markers are numbers in ascending order below the last position.  Among them the
least ones above given markers keep those in front of the last marker that can
move on; this one moves by one, and the others follow right behind it, where
before they had gone as far as they can.  So a cursor that starts with the
lowest markers answers all groupings in the lexicographic order of their
markers, and an associative match finds what a match of the runs finds for some
grouping.
-/

namespace Equational

namespace Grouping

open Checked

/-!
## The lowest and the highest markers

Ascending numbers take up as much room as there are of them.  So no ascending numbers are below
the lowest ones or above the highest ones.
-/

theorem add_length_le (low high : Nat) {list : List Nat} (hsorted : list.Pairwise (· < ·))
    (hbound : ∀ a ∈ list, low ≤ a ∧ a < high) (hle : low ≤ high) : low + list.length ≤ high := by
  induction list generalizing low with
  | nil => exact hle
  | cons a rest ih =>
      rw [List.pairwise_cons] at hsorted
      have ha := hbound a List.mem_cons_self
      have hrest := ih (a + 1) hsorted.2
        (fun b hb => ⟨hsorted.1 b hb, (hbound b (List.mem_cons_of_mem _ hb)).2⟩) ha.2
      rw [List.length_cons]
      omega

theorem not_lt_range' {low : Nat} {list : List Nat} (hsorted : list.Pairwise (· < ·))
    (hlow : ∀ a ∈ list, low ≤ a) : ¬list < List.range' low list.length := by
  induction list generalizing low with
  | nil => exact List.lt_irrefl _
  | cons a rest ih =>
      rw [List.pairwise_cons] at hsorted
      rw [List.length_cons, List.range'_succ, List.cons_lt_cons_iff]
      rintro (hless | ⟨rfl, hless⟩)
      · exact absurd (hlow a List.mem_cons_self) (Nat.not_le.mpr hless)
      · exact ih hsorted.2 hsorted.1 hless

theorem not_range'_lt (low : Nat) {high : Nat} {list : List Nat} (hsorted : list.Pairwise (· < ·))
    (hhigh : ∀ a ∈ list, a < high) (hroom : low + list.length = high) :
    ¬List.range' low list.length < list := by
  induction list generalizing low with
  | nil => exact List.lt_irrefl _
  | cons a rest ih =>
      have hpairs := List.pairwise_cons.mp hsorted
      rw [List.length_cons] at hroom ⊢
      rw [List.range'_succ, List.cons_lt_cons_iff]
      rintro (hless | ⟨-, hless⟩)
      · have ha := add_length_le (a + 1) high hpairs.2
          (fun b hb => ⟨hpairs.1 b hb, hhigh b (List.mem_cons_of_mem _ hb)⟩)
          (hhigh a List.mem_cons_self)
        omega
      · exact ih (low + 1) hpairs.2 (fun b hb => hhigh b (List.mem_cons_of_mem _ hb)) (by omega)
          hless

/-- So many markers in ascending order, each before one of so many cuts. -/
structure Marks (count cuts : Nat) (markers : List Nat) : Prop where
  length_eq : markers.length = count
  sorted : markers.Pairwise (· < ·)
  bound : ∀ marker ∈ markers, marker < cuts

theorem Marks.le {count cuts : Nat} {markers : List Nat} (h : Marks count cuts markers) :
    count ≤ cuts := by
  have hle := add_length_le 0 cuts h.sorted (fun a ha => ⟨Nat.zero_le a, h.bound a ha⟩)
    (Nat.zero_le cuts)
  rwa [h.length_eq, Nat.zero_add] at hle

/-!
## The step

The search to the left passes over markers that are as high as they can be.  If it passes over
all, there are no markers above; else it stops at the last one that can move, and those behind it
are put right behind its new place.
-/

section

variable {count cuts marker top height : Nat} {front : List Nat}

theorem isNext_none (hroom : top + height = cuts) :
    IsNext (Marks height cuts) (List.range' top height) none := by
  intro other hother
  have hnot := not_range'_lt top hother.sorted hother.bound (by rw [hother.length_eq, hroom])
  rwa [hother.length_eq] at hnot

/-- If the markers behind one of them are the highest ones, then the least ones above move this
marker by one and the others right behind it. -/
theorem isNext_some (h : Marks count cuts (front ++ marker :: List.range' top height))
    (hroom : top + height = cuts) (hmovable : marker + 1 < top) :
    IsNext (Marks count cuts) (front ++ marker :: List.range' top height)
      (some (front ++ List.range' (marker + 1) (height + 1))) := by
  rcases h with ⟨hlength, hsorted, hbound⟩
  rw [List.pairwise_append] at hsorted
  refine ⟨⟨?_, ?_, ?_⟩, ?_, ?_⟩
  · rw [← hlength]
    simp
  · refine List.pairwise_append.mpr ⟨hsorted.1, List.pairwise_lt_range' .., fun a ha b hb => ?_⟩
    have hmarker := hsorted.2.2 a ha marker List.mem_cons_self
    rw [List.mem_range'_1] at hb
    omega
  · intro a ha
    rcases List.mem_append.mp ha with ha | ha
    · exact hbound a (List.mem_append_left _ ha)
    · rw [List.mem_range'_1] at ha
      omega
  · rw [List.range'_succ]
    exact List.append_left_lt (List.cons_lt_cons_iff.mpr (.inl (Nat.lt_succ_self marker)))
  · intro other hother hless hbetween
    rcases exists_append_of_between front hless hbetween with ⟨rest, rfl, hlower, hupper⟩
    have hrest := (List.pairwise_append.mp hother.sorted).2.1
    have hhigh : ∀ a ∈ rest, a < cuts := fun a ha => hother.bound a (List.mem_append_right _ ha)
    have hsize : rest.length = height + 1 := by
      have := hother.length_eq.trans hlength.symm
      simp only [List.length_append, List.length_cons, List.length_range'] at this
      omega
    cases rest with
    | nil => cases hsize
    | cons a rest =>
        have hcount : rest.length = height := Nat.succ.inj hsize
        have hpairs := List.pairwise_cons.mp hrest
        rw [List.range'_succ, List.cons_lt_cons_iff] at hupper
        rw [List.cons_lt_cons_iff] at hlower
        rcases hlower with hlower | ⟨-, hlower⟩
        · rcases hupper with hupper | ⟨rfl, hupper⟩
          · exact absurd hlower (Nat.not_lt.mpr (Nat.le_of_lt_succ hupper))
          · rw [← hcount] at hupper
            exact not_lt_range' hpairs.2 hpairs.1 hupper
        · rw [← hcount] at hlower
          exact not_range'_lt top hpairs.2 (fun b hb => hhigh b (List.mem_cons_of_mem _ hb))
            (by rw [hcount, hroom]) hlower

namespace Cursor

theorem movable_cases {n : Nat} (h : Marks count cuts (front ++ List.range' top height))
    (hroom : top + height = cuts) (hn : n = cuts + 1) :
    (∃ low, front ++ List.range' top height = List.range' low count ∧ low + count = cuts ∧
        movable (front ++ List.range' top height) n front.length = .ok none) ∨
      ∃ before marker above width, front ++ List.range' top height =
          before ++ marker :: List.range' above width ∧
        above + width = cuts ∧ marker + 1 < above ∧
        movable (front ++ List.range' top height) n front.length = .ok (some before.length) := by
  induction front using List.reverseRecOn generalizing top height with
  | nil =>
      have hcount := h.length_eq
      rw [List.nil_append, List.length_range'] at hcount
      exact .inl ⟨top, by rw [List.nil_append, hcount], by rw [← hcount, hroom], rfl⟩
  | append_singleton front marker ih =>
      have hlist : front ++ [marker] ++ List.range' top height =
          front ++ marker :: List.range' top height := by simp
      have hle := h.le
      have hcount := h.length_eq
      rw [hlist] at h hcount ⊢
      have hlast : marker + 1 + height ≤ cuts := by
        have hpairs := List.pairwise_cons.mp (List.pairwise_append.mp h.sorted).2.1
        have hmarker := h.bound marker (List.mem_append_right _ List.mem_cons_self)
        have := add_length_le (marker + 1) cuts hpairs.2 (fun a ha =>
          ⟨hpairs.1 a ha, h.bound a (List.mem_append_right _ (List.mem_cons_of_mem _ ha))⟩) hmarker
        rwa [List.length_range'] at this
      have hcuts : minus n 1 = .ok cuts := by
        rw [minus_of_le (by omega), hn, Nat.add_sub_cancel]
      have hfree : minus cuts (front ++ marker :: List.range' top height).length =
          .ok (cuts - count) := by
        rw [hcount, minus_of_le hle]
      rw [List.length_append, List.length_cons, List.length_range'] at hcount
      have hlimit : marker < cuts - count + front.length ↔ marker + 1 < top := by omega
      rw [List.length_append, List.length_singleton, movable, read_append]
      simp only [bind, Except.bind, hcuts, hfree, hlimit]
      by_cases hmovable : marker + 1 < top
      · rw [if_pos hmovable]
        exact .inr ⟨front, marker, top, height, rfl, hroom, hmovable, rfl⟩
      · have htop : top = marker + 1 := by omega
        rw [if_neg hmovable]
        rw [htop, ← List.range'_succ] at h ⊢
        exact ih h (by omega)

theorem follow_eq (front : List Nat) (marker : Nat) (rest : List Nat) :
    follow (front ++ marker :: rest) front.length rest.length =
      .ok (front ++ List.range' marker (rest.length + 1)) := by
  induction rest generalizing front marker with
  | nil => rfl
  | cons a rest ih =>
      have hwrite : write (front ++ marker :: a :: rest) (front.length + 1) (marker + 1) =
          .ok (front ++ [marker] ++ (marker + 1) :: rest) := by
        simp [write]
      have hrest := ih (front ++ [marker]) (marker + 1)
      rw [List.length_append, List.length_singleton] at hrest
      rw [List.length_cons, follow, read_append]
      simp only [bind, Except.bind, hwrite, hrest]
      rw [List.append_assoc, List.singleton_append, ← List.range'_succ]

variable {α β : Type} {list : List α} {wrap : List α → β} {markers : List Nat}

/-- The step never leaves the list nor goes below zero, and comes to the least markers above, if
there are any. -/
theorem exists_advance_eq (wrap : List α → β) (h : Marks count cuts markers)
    (hn : list.length = cuts + 1) :
    ∃ answer, advance ⟨list, wrap, markers, false⟩ =
        .ok (answer.elim ⟨list, wrap, markers, true⟩ fun next => ⟨list, wrap, next, false⟩) ∧
      IsNext (Marks count cuts) markers answer := by
  have hopen : Marks count cuts (markers ++ List.range' cuts 0) := by
    rwa [List.range'_zero, List.append_nil]
  have hcases := movable_cases hopen rfl hn
  rw [List.range'_zero, List.append_nil] at hcases
  rcases hcases with ⟨low, hmarkers, hroom, hmovable⟩ |
    ⟨before, marker, above, width, hmarkers, hroom, hless, hmovable⟩
  · refine ⟨none, ?_, hmarkers ▸ isNext_none hroom⟩
    simp only [advance, hmovable, bind, Except.bind]
    rfl
  · refine ⟨some (before ++ List.range' (marker + 1) (width + 1)), ?_, ?_⟩
    · have hcount : markers.length - (before.length + 1) = (List.range' above width).length := by
        rw [hmarkers, List.length_append, List.length_cons]
        omega
      have hfollow := follow_eq before (marker + 1) (List.range' above width)
      rw [List.length_range'] at hfollow hcount
      have hread : read markers before.length = .ok marker := by rw [hmarkers, read_append]
      have hwrite : write markers before.length (marker + 1) =
          .ok (before ++ (marker + 1) :: List.range' above width) := by
        rw [hmarkers, write_append]
      simp only [advance, hmovable, bind, Except.bind, hread, hwrite, hcount, hfollow]
      rfl
    · rw [hmarkers] at h ⊢
      exact isNext_some h hroom hless

theorem runsFrom_eq (wrap : List α → β) {start : Nat} (hsorted : markers.Pairwise (· < ·))
    (hbound : ∀ marker ∈ markers, start ≤ marker ∧ marker < list.length)
    (hstart : start ≤ list.length) :
    runsFrom list wrap start markers = .ok ((cut start markers (list.drop start)).map wrap) := by
  induction markers generalizing start with
  | nil =>
      rw [runsFrom, slice_of_le hstart (Nat.le_refl _), List.take_length]
      rfl
  | cons marker rest ih =>
      rw [List.pairwise_cons] at hsorted
      have hmarker := hbound marker List.mem_cons_self
      have hrest := @ih (marker + 1) hsorted.2
        (fun a ha => ⟨hsorted.1 a ha, (hbound a (List.mem_cons_of_mem _ ha)).2⟩) hmarker.2
      have hdrop : (list.drop start).drop (marker + 1 - start) = list.drop (marker + 1) := by
        rw [List.drop_drop, Nat.add_sub_cancel' (by omega)]
      rw [runsFrom, slice_of_le (by omega) hmarker.2, hrest, cut, List.drop_take, hdrop]
      rfl

end Cursor

end

/-!
## The cursor

The step leads from listed markers to those that are listed behind them.  So a cursor that has
come to some markers answers their grouping and then the others, and the runs that it answers are
those that the list is cut into.
-/

theorem mem_markers_iff_marks {runs n : Nat} {marks : List Nat} :
    marks ∈ (markers runs n).toList ↔ (0 < runs ∧ runs < n) ∧ Marks (runs - 1) (n - 1) marks := by
  by_cases h : 0 < runs ∧ runs < n
  · rw [mem_markers_iff h.1 h.2]
    constructor
    · rintro ⟨hlength, hsorted, hbound⟩
      exact ⟨h, hlength, hsorted, fun mark hmark => Nat.lt_sub_of_add_lt (hbound mark hmark)⟩
    · rintro ⟨-, hlength, hsorted, hbound⟩
      exact ⟨hlength, hsorted, fun mark hmark => Nat.add_lt_of_lt_sub (hbound mark hmark)⟩
  · rw [markers, if_pos (by omega)]
    exact ⟨fun hmem => absurd hmem (List.not_mem_nil), fun hmarks => absurd hmarks.1 h⟩

namespace Cursor

variable {α β : Type} {list : List α} {wrap : List α → β} {runs : Nat}
  {front rest : List (List Nat)} {marks : List Nat}

theorem advance_of_listed
    (h : (Grouping.markers runs list.length).toList = front ++ marks :: rest) :
    advance ⟨list, wrap, marks, false⟩ =
      .ok (rest.head?.elim ⟨list, wrap, marks, true⟩ fun next => ⟨list, wrap, next, false⟩) := by
  rcases mem_markers_iff_marks.mp (h ▸ List.mem_append_right _ List.mem_cons_self) with
    ⟨hruns, hmarks⟩
  have hamong : ∀ other,
      Marks (runs - 1) (list.length - 1) other ↔ other ∈ front ++ marks :: rest := by
    intro other
    rw [← h, mem_markers_iff_marks, and_iff_right hruns]
  rcases exists_advance_eq wrap hmarks (Nat.sub_add_cancel (by omega)).symm with
    ⟨answer, hanswer, hnext⟩
  rw [hanswer, hnext.eq_head? hamong (h ▸ sorted_markers runs list.length)]

theorem next_of_listed (h : (Grouping.markers runs list.length).toList = front ++ marks :: rest) :
    next ⟨list, wrap, marks, false⟩ = .ok (some ((cut 0 marks list).map wrap),
      rest.head?.elim ⟨list, wrap, marks, true⟩ fun next => ⟨list, wrap, next, false⟩) := by
  have hmarks := (mem_markers_iff_marks.mp (h ▸ List.mem_append_right _ List.mem_cons_self)).2
  have hcut := runsFrom_eq wrap hmarks.sorted
    (fun mark hmark => ⟨Nat.zero_le mark, Nat.lt_of_lt_pred (hmarks.bound mark hmark)⟩)
    (Nat.zero_le list.length)
  rw [List.drop_zero] at hcut
  simp only [next, Bool.false_eq_true, if_false, hcut, advance_of_listed h, bind, Except.bind]
  rfl

theorem enumerates_of_listed (front : List (List Nat))
    (h : (Grouping.markers runs list.length).toList = front ++ marks :: rest) :
    Enumerates next ⟨list, wrap, marks, false⟩
      ((marks :: rest).map fun marks => (cut 0 marks list).map wrap) := by
  induction rest generalizing front marks with
  | nil =>
      exact .cons (next_of_listed h) (enumerates_nil_of_eq rfl)
  | cons following rest ih =>
      refine .cons (next_of_listed h) (ih (front ++ [marks]) ?_)
      rw [h, List.append_assoc, List.singleton_append]

theorem enumerates_ofList (runs : Nat) (list : List α) (wrap : List α → β) :
    Enumerates next (ofList runs list wrap)
      ((Grouping.markers runs list.length).toList.map fun marks =>
        (cut 0 marks list).map wrap) := by
  by_cases h : 0 < runs ∧ runs < list.length
  · rcases List.head?_eq_some_iff.mp (head?_markers h.1 h.2) with ⟨rest, hrest⟩
    have hopen : ofList runs list wrap = ⟨list, wrap, firstMarkers runs, false⟩ := by
      simp only [ofList, Cursor.mk.injEq, true_and, Bool.or_eq_false_iff, decide_eq_false_iff_not]
      omega
    rw [hopen, hrest]
    exact enumerates_of_listed [] hrest
  · have hclosed : ofList runs list wrap = ⟨list, wrap, firstMarkers runs, true⟩ := by
      simp only [ofList, Cursor.mk.injEq, true_and, Bool.or_eq_true, decide_eq_true_iff]
      omega
    rw [hclosed, Grouping.markers, if_pos (by omega)]
    exact enumerates_nil_of_eq rfl

end Cursor

theorem cut_of_listed {α : Type} {runs : Nat} {list : List α} {marks : List Nat}
    (h : marks ∈ (markers runs list.length).toList) :
    (cut 0 marks list).length = runs ∧ (∀ run ∈ cut 0 marks list, run ≠ []) ∧
      (cut 0 marks list).flatten = list ∧ marksOf 0 (cut 0 marks list) = marks := by
  rcases mem_markers_iff_marks.mp h with ⟨hruns, hmarks⟩
  have hbound : ∀ mark ∈ marks, 0 ≤ mark ∧ mark + 1 < 0 + list.length := by
    intro mark hmark
    have := hmarks.bound mark hmark
    omega
  rcases cut_spec hmarks.sorted hbound (List.length_pos_iff.mp (by omega)) with
    ⟨hflatten, hlength, hne⟩
  rw [hmarks.length_eq, Nat.sub_add_cancel hruns.1] at hlength
  exact ⟨hlength, hne, hflatten, marksOf_cut hmarks.sorted hbound⟩

/-- If there are more subjects than patterns, an associative match finds what a match of the
patterns with the runs finds for some listed markers. -/
theorem mem_matchAssociative_iff_exists_markers {wrapper : Wrapper} {patterns : List Element}
    {subjects : Sequence Atom} {binds found : Bindings} (h : patterns.length < subjects.length) :
    found ∈ (Sequence.matchAssociative wrapper patterns subjects binds).alternatives ↔
      ∃ marks ∈ (markers patterns.length subjects.length).toList,
        found ∈ (Element.matchAll patterns
          ((cut 0 marks subjects.elements).map wrapper.wrap) binds).alternatives := by
  unfold Sequence.matchAssociative
  rw [if_neg (Nat.ne_of_lt h)]
  by_cases hnone : patterns.length = 0
  · rw [if_pos (.inl hnone), Traced.alternatives_failed, markers, if_pos (.inl hnone)]
    simp
  · rw [if_neg (by omega), Outcome.alternatives_firstOf, Element.bindings_matchGroupings,
      List.mem_flatMap, groupings, LazyList.toList_map]
    simp only [List.mem_map, exists_exists_and_eq_and]
    rfl

/-- The cursor answers one grouping for each choice of markers, in the lexicographic order of the
markers, and nothing after the last; it never fails.  A grouping is made of the runs that the
markers cut the subjects into, wrapped up, and an associative match of fewer patterns finds what
is found for some grouping. -/
theorem enumerates_groupings (wrapper : Wrapper) (runs : Nat) (subjects : Sequence Atom) :
    Enumerates Cursor.next (Cursor.ofList runs subjects.elements wrapper.wrap)
        ((markers runs subjects.length).toList.map fun marks =>
          (cut 0 marks subjects.elements).map wrapper.wrap) ∧
      (markers runs subjects.length).toList.Pairwise (· < ·) ∧
      (∀ marks, marks ∈ (markers runs subjects.length).toList ↔
        (0 < runs ∧ runs < subjects.length) ∧ Marks (runs - 1) (subjects.length - 1) marks) ∧
      (0 < runs ∧ runs < subjects.length → (markers runs subjects.length).toList.length =
        (subjects.length - 1).choose (runs - 1)) ∧
      (∀ marks ∈ (markers runs subjects.length).toList,
        (cut 0 marks subjects.elements).length = runs ∧
        (∀ run ∈ cut 0 marks subjects.elements, run ≠ []) ∧
        (cut 0 marks subjects.elements).flatten = subjects.elements ∧
        marksOf 0 (cut 0 marks subjects.elements) = marks) ∧
      ∀ (patterns : List Element) (binds found : Bindings),
        patterns.length = runs → runs < subjects.length →
        (found ∈ (Sequence.matchAssociative wrapper patterns subjects binds).alternatives ↔
          ∃ marks ∈ (markers runs subjects.length).toList,
            found ∈ (Element.matchAll patterns
              ((cut 0 marks subjects.elements).map wrapper.wrap) binds).alternatives) := by
  refine ⟨Cursor.enumerates_ofList _ _ _, sorted_markers _ _, fun marks => mem_markers_iff_marks,
    fun h => length_markers h.1 h.2, fun marks => cut_of_listed, ?_⟩
  rintro patterns binds found rfl hless
  exact mem_matchAssociative_iff_exists_markers hless

end Grouping

end Equational
