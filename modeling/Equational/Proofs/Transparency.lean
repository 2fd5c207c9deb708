import Mathlib.Data.List.Nodup
import Equational.Proofs.BareEvaluation
import Equational.Proofs.Extension

/-!
# What elimination searches

Elimination pairs constants before anything else is matched.  It thereby picks
out some of the arrangements of all subjects: those in which constants meet
their equals.  What is found after elimination is found for one of these, and
whatever is found for one of these is found after elimination, up to equal
binding sets.  If no constant pattern could take anything but its equals, then
these are all arrangements for which anything is found.
-/

namespace Equational

open Atom Elimination

/-!
## Settled arrangements

In a settled arrangement there are no more equals of a constant pattern without parts than equal
subjects, so that all such patterns are paired.
-/

/-- The fingerprints of patterns and subjects are not those of any other atom at hand: neither of
a pattern or subject, nor of a run of subjects that was wrapped up. -/
def Discerned (wrapper : Wrapper) (patterns subjects : List Atom) : Prop :=
  ∀ a ∈ patterns ++ subjects, ∀ b,
    (b ∈ patterns ++ subjects ∨ ∃ run : List Atom, run.Subperm subjects ∧ b = wrapper.wrap run) →
      a.fingerprint = b.fingerprint → Alike a b

/-- Constants meet their equals: every constant pattern without parts does, and of equal constant
patterns with parts as many as there are equal subjects, the first ones before the others. -/
def Settled (patterns subjects : List Atom) (runs : List (List Atom)) : Prop :=
  ∀ (i : Nat) (pattern : Atom) (run : List Atom), patterns[i]? = some pattern →
    runs[i]? = some run → pattern.isConstant = true →
      (pattern.isStructured = true →
        (patterns.take i).countP (· == pattern) < subjects.countP (· == pattern)) →
          ∃ subject, run = [subject] ∧ (subject == pattern) = true

/-- Two searches find equal binding sets. -/
def FindEqual (found other : Bindings → Prop) : Prop :=
  (∀ binds, found binds → ∃ equal, other equal ∧ (binds == equal) = true) ∧
    ∀ equal, other equal → ∃ binds, found binds ∧ (binds == equal) = true

section

variable {wrapper : Wrapper} {patterns subjects : List Atom} {runs : List (List Atom)}

namespace Discerned

theorem alike_of_fingerprint (h : Discerned wrapper patterns subjects) {a b : Atom}
    (ha : a ∈ patterns ++ subjects) (hb : b ∈ patterns ++ subjects)
    (hfingerprint : a.fingerprint = b.fingerprint) : Alike a b :=
  h a ha b (Or.inl hb) hfingerprint

theorem faithful (h : Discerned wrapper patterns subjects) : Faithful patterns subjects := by
  intro p hp s hs _ _ hfingerprint
  have halike := h.alike_of_fingerprint (List.mem_append_left _ hp) (List.mem_append_right _ hs)
    hfingerprint
  exact beq_symm (Like.beq halike)

theorem isConstantOf_eq (h : Discerned wrapper patterns subjects) {pattern atom : Atom}
    (hpattern : pattern ∈ patterns ++ subjects) (hatom : atom ∈ patterns ++ subjects)
    (hconstant : pattern.isConstant = true) :
    Sequence.isConstantOf pattern.fingerprint atom = (atom == pattern) :=
  isConstantOf_eq_beq (h.alike_of_fingerprint hatom hpattern) hconstant

theorem countP_isConstantOf (h : Discerned wrapper patterns subjects) {pattern : Atom}
    (hpattern : pattern ∈ patterns ++ subjects) (hconstant : pattern.isConstant = true)
    {list : List Atom} (hlist : ∀ atom ∈ list, atom ∈ patterns ++ subjects) :
    list.countP (Sequence.isConstantOf pattern.fingerprint) = list.countP (· == pattern) :=
  List.countP_congr fun atom hatom => by
    rw [h.isConstantOf_eq hpattern (hlist atom hatom) hconstant]

/-- A constant pattern is paired if fewer of its equals stand before it than are on the other
side. -/
theorem paired_iff (h : Discerned wrapper patterns subjects) {i : Nat} {pattern : Atom}
    (hpattern : patterns[i]? = some pattern) (hconstant : pattern.isConstant = true) :
    (paired subjects patterns)[i]? = some true ↔
      (patterns.take i).countP (· == pattern) < subjects.countP (· == pattern) := by
  have hmem : pattern ∈ patterns ++ subjects :=
    List.mem_append_left _ (List.mem_of_getElem? hpattern)
  rw [getElem?_paired, hpattern, Option.map_some, Option.some_inj, hconstant, Bool.true_and,
    decide_eq_true_iff,
    h.countP_isConstantOf hmem hconstant fun a ha =>
      List.mem_append_left _ (List.mem_of_mem_take ha),
    h.countP_isConstantOf hmem hconstant fun a ha => List.mem_append_right _ ha]

end Discerned

theorem forall₂_pick_iff {α β : Type} {R : α → β → Prop} {flags : List Bool} {list : List α}
    {other : List β} (hlist : flags.length = list.length) (hother : flags.length = other.length) :
    List.Forall₂ R (pick flags list) (pick flags other) ↔
      ∀ (i : Nat) (a : α) (b : β), flags[i]? = some true → list[i]? = some a →
        other[i]? = some b → R a b := by
  induction flags generalizing list other with
  | nil => exact ⟨fun _ _ _ _ hflag => (by cases hflag), fun _ => .nil⟩
  | cons flag flags ih =>
      cases list with
      | nil => cases hlist
      | cons first list =>
          cases other with
          | nil => cases hother
          | cons second other =>
              have hrest := @ih list other (by simpa using hlist)
                (by simpa using hother)
              cases flag with
              | true =>
                  simp only [pick, List.forall₂_cons, hrest]
                  constructor
                  · rintro ⟨hfirst, hothers⟩ i a b hflag ha hb
                    cases i with
                    | zero =>
                        cases ha
                        cases hb
                        exact hfirst
                    | succ i => exact hothers i a b hflag ha hb
                  · intro h
                    exact ⟨h 0 first second rfl rfl rfl, fun i => h (i + 1)⟩
              | false =>
                  simp only [pick, hrest]
                  constructor
                  · intro hothers i a b hflag ha hb
                    cases i with
                    | zero => cases hflag
                    | succ i => exact hothers i a b hflag ha hb
                  · intro h
                    exact fun i => h (i + 1)

theorem countP_le_countP_flatten {digest : Digest}
    (h : List.Forall₂ (fun run pattern => Sequence.isConstantOf digest pattern = true →
      ∃ subject, run = [subject] ∧ Sequence.isConstantOf digest subject = true) runs patterns) :
    patterns.countP (Sequence.isConstantOf digest) ≤
      runs.flatten.countP (Sequence.isConstantOf digest) := by
  induction h with
  | nil => exact Nat.le_refl _
  | @cons run pattern runs patterns hfirst _ ih =>
      rw [List.flatten_cons, List.countP_append, List.countP_cons]
      cases hof : Sequence.isConstantOf digest pattern with
      | false =>
          simp only [Bool.false_eq_true, if_false]
          omega
      | true =>
          rcases hfirst hof with ⟨subject, rfl, hsubject⟩
          simp only [if_true, List.countP_singleton, hsubject]
          omega

theorem countP_take_lt {α : Type} {p : α → Bool} {list : List α} {i : Nat} {a : α}
    (ha : list[i]? = some a) (hp : p a = true) : (list.take i).countP p < list.countP p := by
  rcases List.getElem?_eq_some_iff.mp ha with ⟨hi, hget⟩
  have hsplit := congrArg (List.countP p) (List.take_append_drop i list)
  rw [List.countP_append, List.drop_eq_getElem_cons hi, hget, List.countP_cons, if_pos hp] at hsplit
  omega

/-- The equals of a constant pattern without parts are not more than the equal subjects, since
each of them meets one. -/
theorem Settled.countP_le {associative : Bool} (hsettled : Settled patterns subjects runs)
    (h : Discerned wrapper patterns subjects)
    (harrangement : Arrangement associative true subjects patterns.length runs) {pattern : Atom}
    (hpattern : pattern ∈ patterns) (hconstant : pattern.isConstant = true)
    (hplain : pattern.isStructured = false) :
    patterns.countP (Sequence.isConstantOf pattern.fingerprint) ≤
      subjects.countP (Sequence.isConstantOf pattern.fingerprint) := by
  have hmem : pattern ∈ patterns ++ subjects := List.mem_append_left _ hpattern
  rw [← harrangement.perm.countP_eq]
  refine countP_le_countP_flatten (List.forall₂_iff_get.mpr ⟨harrangement.length, ?_⟩)
  intro j hj hj' hof
  have hother : patterns[j]? = some (patterns.get ⟨j, hj'⟩) := List.getElem?_eq_getElem hj'
  have halike : Alike (patterns.get ⟨j, hj'⟩) pattern := h.alike_of_fingerprint
    (List.mem_append_left _ (List.mem_of_getElem? hother)) hmem (isConstantOf_iff.mp hof).2
  have hotherPlain : (patterns.get ⟨j, hj'⟩).isStructured = false :=
    (Like.isStructured halike).trans hplain
  rcases hsettled j _ _ hother (List.getElem?_eq_getElem hj) (isConstantOf_iff.mp hof).1
    (fun hstructured => by rw [hotherPlain] at hstructured; cases hstructured)
    with ⟨subject, hrun, hequal⟩
  have hsubject : subject ∈ subjects := by
    rw [← harrangement.perm.mem_iff, List.mem_flatten]
    exact ⟨runs[j], List.getElem_mem hj, by rw [hrun]; exact List.mem_singleton_self _⟩
  refine ⟨subject, hrun, ?_⟩
  rw [h.isConstantOf_eq hmem (List.mem_append_right _ hsubject) hconstant]
  exact beq_trans hequal (Like.beq halike)

theorem Settled.isStructured_of_mem_skip {associative : Bool}
    (hsettled : Settled patterns subjects runs) (h : Discerned wrapper patterns subjects)
    (harrangement : Arrangement associative true subjects patterns.length runs) {pattern : Atom}
    (hskip : pattern ∈ skip (paired subjects patterns) patterns)
    (hconstant : pattern.isConstant = true) : pattern.isStructured = true := by
  rcases mem_skip_iff.mp hskip with ⟨i, hflag, hpattern⟩
  have hmem : pattern ∈ patterns := List.mem_of_getElem? hpattern
  by_contra hplain
  have henough := hsettled.countP_le h harrangement hmem hconstant (by simpa using hplain)
  have hfewer := countP_take_lt hpattern
    (isConstantOf_iff.mpr ⟨hconstant, rfl⟩ : Sequence.isConstantOf pattern.fingerprint _ = true)
  have hpaired := (h.paired_iff hpattern hconstant).mpr (by
    rw [← h.countP_isConstantOf (List.mem_append_left _ hmem) hconstant
        fun a ha => List.mem_append_left _ (List.mem_of_mem_take ha),
      ← h.countP_isConstantOf (List.mem_append_left _ hmem) hconstant
        fun a ha => List.mem_append_right _ ha]
    omega)
  rw [hflag] at hpaired
  cases hpaired

def Meets (run : List Atom) (pattern : Atom) : Prop :=
  ∃ subject, run = [subject] ∧ (subject == pattern) = true

/-- An arrangement is settled if the pairs of elimination meet, and elimination goes on. -/
theorem settled_iff {associative : Bool} (h : Discerned wrapper patterns subjects)
    (harrangement : Arrangement associative true subjects patterns.length runs) :
    Settled patterns subjects runs ↔
      List.Forall₂ Meets (pick (paired subjects patterns) runs)
          (pick (paired subjects patterns) patterns) ∧
        ∀ pattern ∈ skip (paired subjects patterns) patterns,
          pattern.isConstant = true → pattern.isStructured = true := by
  rw [forall₂_pick_iff (by simp [harrangement.length]) (by simp)]
  constructor
  · intro hsettled
    refine ⟨?_, fun pattern => hsettled.isStructured_of_mem_skip h harrangement⟩
    intro i run pattern hflag hrun hpattern
    have hconstant : pattern.isConstant = true :=
      isConstant_of_mem_pick (mem_pick_iff.mpr ⟨i, hflag, hpattern⟩)
    exact hsettled i pattern run hpattern hrun hconstant fun _ =>
      (h.paired_iff hpattern hconstant).mp hflag
  · rintro ⟨hmeets, hskip⟩ i pattern run hpattern hrun hconstant hfirst
    refine hmeets i run pattern ?_ hrun hpattern
    cases hflag : (paired subjects patterns)[i]? with
    | none =>
        have hi := (List.getElem?_eq_some_iff.mp hpattern).1
        have hnone := List.getElem?_eq_none_iff.mp hflag
        rw [length_paired] at hnone
        omega
    | some flag =>
        cases flag with
        | true => rfl
        | false =>
            have hstructured := hskip pattern (mem_skip_iff.mpr ⟨i, hflag, hpattern⟩) hconstant
            have hpaired := (h.paired_iff hpattern hconstant).mpr (hfirst hstructured)
            rw [hflag] at hpaired
            cases hpaired

end

/-!
## Settled arrangements and elimination

Patterns that meet their equals bind nothing, and can be left out.  The subjects that a settled
arrangement has beside them are those that elimination leaves, once they are bare.  Conversely, a
constant without parts takes its equals only, unless it takes everything.
-/

section

variable {wrapper : Wrapper} {evaluate : GuardEvaluator} {patterns : List Atom}
  {subjects : Sequence Atom} {binds found : Bindings} {associative : Bool}
  {runs whole : List (List Atom)}

theorem alternatives_matchAll_of_meets (hlength : whole.length = patterns.length)
    (h : List.Forall₂ Meets (pick (paired subjects.elements patterns) whole)
      (pick (paired subjects.elements patterns) patterns)) :
    (Element.matchAll (listElements evaluate patterns) (whole.map wrapper.wrap)
        binds).alternatives =
      (Element.matchAll (patternsLeft (listElements evaluate patterns) subjects.elements)
        ((skip (paired subjects.elements patterns) whole).map wrapper.wrap)
          binds).alternatives := by
  rw [@Element.alternatives_matchAll_skip (paired subjects.elements patterns) _ _ (by simp)
    (by simp [hlength])]
  · rw [patternsLeft, map_pattern_listElements, skip_map]
  · rw [listElements_eq_map, pick_map, pick_map, List.forall₂_map_left_iff,
      List.forall₂_map_right_iff]
    have hconstants : ∀ pattern ∈ pick (paired subjects.elements patterns) patterns,
        pattern.isConstant = true := fun _ => isConstant_of_mem_pick
    generalize pick (paired subjects.elements patterns) whole = met at h ⊢
    generalize pick (paired subjects.elements patterns) patterns = constants at h hconstants ⊢
    induction h with
    | nil => exact .nil
    | cons hmeets _ ih =>
        rcases hmeets with ⟨subject, rfl, hequal⟩
        exact .cons (alternatives_search_of_beq evaluate (hconstants _ List.mem_cons_self) hequal)
          (ih fun pattern hpattern => hconstants pattern (List.mem_cons_of_mem _ hpattern))

theorem goesOn_iff :
    GoesOn (listElements evaluate patterns) subjects.elements ↔
      ∀ pattern ∈ skip (paired subjects.elements patterns) patterns,
        pattern.isConstant = true → pattern.isStructured = true := by
  unfold GoesOn patternsLeft
  rw [map_pattern_listElements, listElements_eq_map, skip_map]
  simp only [List.forall_mem_map]
  rfl

theorem exists_settled_arrangement (h : Discerned wrapper patterns subjects.elements)
    (hgoes : GoesOn (listElements evaluate patterns) subjects.elements)
    (hruns : Arrangement associative true
      (subjectsLeft (listElements evaluate patterns) subjects.elements)
      (patternsLeft (listElements evaluate patterns) subjects.elements).length runs)
    (hfound : found ∈ (Element.matchAll
      (patternsLeft (listElements evaluate patterns) subjects.elements)
      (runs.map wrapper.wrap) binds).alternatives) :
    ∃ whole, Arrangement associative true subjects.elements patterns.length whole ∧
      Settled patterns subjects.elements whole ∧
      found ∈ (Element.matchAll (listElements evaluate patterns) (whole.map wrapper.wrap)
        binds).alternatives := by
  rcases exists_chosen h.faithful with ⟨chosen, hperm, hchosen⟩
  have hlength : chosen.length =
      (pick (paired subjects.elements ((listElements evaluate patterns).map (·.pattern)))
        (listElements evaluate patterns)).length := by
    rw [← Sequence.length_pick_patterns, map_pattern_listElements]
    exact hchosen.length_eq
  rcases Sequence.completed_spec (by rwa [map_pattern_listElements]) hlength hruns with
    ⟨harrangement, hpick, hskip⟩
  rw [map_pattern_listElements] at harrangement hpick hskip
  rw [length_listElements] at harrangement
  have hmeets : List.Forall₂ Meets
      (pick (paired subjects.elements patterns)
        (Sequence.completed (paired subjects.elements patterns) chosen runs))
      (pick (paired subjects.elements patterns) patterns) := by
    rw [hpick, singles, List.forall₂_map_left_iff]
    exact hchosen.imp fun subject pattern hequal => ⟨subject, rfl, hequal.2⟩
  refine ⟨_, harrangement, (settled_iff h harrangement).mpr ⟨hmeets, goesOn_iff.mp hgoes⟩, ?_⟩
  rw [alternatives_matchAll_of_meets harrangement.length hmeets, hskip]
  exact hfound

theorem forall₂_flatten_of_single {α β : Type} {R : α → β → Prop} {list : List α}
    {runs : List (List β)} (h : List.Forall₂ (fun a run => ∃ b, run = [b] ∧ R a b) list runs) :
    List.Forall₂ R list runs.flatten := by
  induction h with
  | nil => exact .nil
  | cons hfirst _ ih =>
      rcases hfirst with ⟨b, rfl, hR⟩
      exact .cons hR ih

theorem perm_skip_of_meets (h : Discerned wrapper patterns subjects.elements)
    (harrangement : Arrangement associative true subjects.elements patterns.length whole)
    (hmeets : List.Forall₂ Meets (pick (paired subjects.elements patterns) whole)
      (pick (paired subjects.elements patterns) patterns)) :
    ((subjectsLeft (listElements evaluate patterns) subjects.elements).map
        (Atom.bare id)).Perm
      ((skip (paired subjects.elements patterns) whole).flatten.map (Atom.bare id)) := by
  rcases exists_chosen h.faithful with ⟨chosen, hperm, hchosen⟩
  have hwhole := (@pick_append_skip_perm _ (paired subjects.elements patterns)
    whole (by simp [harrangement.length])).flatten
  rw [List.flatten_append] at hwhole
  have hmet : List.Forall₂ Alike chosen
      (pick (paired subjects.elements patterns) whole).flatten := by
    refine forall₂_flatten_of_single (forall₂_of_common hchosen hmeets ?_)
    rintro other hother run hrun pattern ⟨-, hequal⟩ ⟨subject, rfl, hsubject⟩
    refine ⟨subject, rfl, h.alike_of_fingerprint
      (List.mem_append_right _ (mem_of_mem_pick (hperm.subset hother)))
      (List.mem_append_right _ ?_) ((beq_iff _ _).mp (beq_trans hequal (beq_symm hsubject))).2⟩
    rw [← harrangement.perm.mem_iff, List.mem_flatten]
    exact ⟨_, mem_of_mem_pick hrun, List.mem_singleton_self _⟩
  have hleft := ((hperm.append_right _).trans (@pick_append_skip_perm _
    (paired patterns subjects.elements) subjects.elements (by simp)))
  have hboth := ((hleft.trans (hwhole.trans harrangement.perm).symm).map (Atom.bare id))
  rw [List.map_append, List.map_append, forall₂_like_iff.mp hmet] at hboth
  rw [subjectsLeft, map_pattern_listElements]
  exact (List.perm_append_left_iff _).mp hboth

theorem Arrangement.exists_like {f : Option String → Option String} {list others : List Atom}
    {k : Nat} (h : Arrangement associative true list k runs)
    (hperm : (others.map (Atom.bare f)).Perm (list.map (Atom.bare f))) :
    ∃ moved, Arrangement associative true others k moved ∧
      List.Forall₂ (List.Forall₂ (Like f)) moved runs := by
  rcases exists_order_of_bare (hperm.trans (h.perm.map (Atom.bare f)).symm) with
    ⟨order, horder, hlike⟩
  rcases exists_split hlike with ⟨moved, rfl, hmoved⟩
  have hsame : ∀ run ∈ moved, ∃ other ∈ runs, run.length = other.length := by
    intro run hrun
    rcases exists_of_mem_forall₂ hmoved hrun with ⟨other, hother, hall⟩
    exact ⟨other, hother, hall.length_eq⟩
  refine ⟨moved, ⟨hmoved.length_eq.trans h.length, ?_, horder, by simp, ?_⟩, hmoved⟩
  · intro run hrun hnil
    rcases hsame run hrun with ⟨other, hother, heq⟩
    rw [hnil] at heq
    exact h.nonempty other hother (List.length_eq_zero_iff.mp heq.symm)
  · intro hassociative run hrun
    rcases hsame run hrun with ⟨other, hother, heq⟩
    exact heq.trans (h.single hassociative other hother)

theorem Element.exists_of_like {f : Option String → Option String}
    (hevaluate : evaluate.Agree f evaluate) {list others : List Atom}
    (hlike : List.Forall₂ (Like f) list others)
    (hfound : found ∈ (matchAll (listElements evaluate patterns) list binds).alternatives) :
    ∃ other ∈ (matchAll (listElements evaluate patterns) others binds).alternatives,
      NameMap.Agree f found other :=
  exists_of_mem_forall₂ (findings_matchAll (agree_listElements hevaluate patterns
    (List.forall₂_same.mpr fun atom _ => Like.refl atom)) hlike rfl) hfound

theorem forall₂_wrap {f : Option String → Option String} {moved : List (List Atom)}
    (h : List.Forall₂ (List.Forall₂ (Like f)) moved runs) :
    List.Forall₂ (Like f) (runs.map wrapper.wrap) (moved.map wrapper.wrap) :=
  List.rel_map (fun _ _ hrun => Wrapper.like_wrap rfl hrun)
    (h.flip.imp fun _ _ hall => hall.flip.imp fun _ _ hlike => hlike.symm)

theorem patternsLeft_listElements (evaluate : GuardEvaluator) (list subjects : List Atom) :
    patternsLeft (listElements evaluate list) subjects =
      listElements evaluate (skip (paired subjects list) list) := by
  rw [patternsLeft, map_pattern_listElements, listElements_eq_map, listElements_eq_map, skip_map]

theorem exists_arrangement_left (hevaluate : evaluate.Agree id evaluate)
    (h : Discerned wrapper patterns subjects.elements)
    (harrangement : Arrangement associative true subjects.elements patterns.length whole)
    (hsettled : Settled patterns subjects.elements whole)
    (hfound : found ∈ (Element.matchAll (listElements evaluate patterns)
      (whole.map wrapper.wrap) binds).alternatives) :
    GoesOn (listElements evaluate patterns) subjects.elements ∧
      ∃ runs, Arrangement associative true
          (subjectsLeft (listElements evaluate patterns) subjects.elements)
          (patternsLeft (listElements evaluate patterns) subjects.elements).length runs ∧
        ∃ other ∈ (Element.matchAll
            (patternsLeft (listElements evaluate patterns) subjects.elements)
            (runs.map wrapper.wrap) binds).alternatives,
          NameMap.Agree id found other := by
  rcases (settled_iff h harrangement).mp hsettled with ⟨hmeets, hskip⟩
  rw [alternatives_matchAll_of_meets harrangement.length hmeets] at hfound
  have hlength : (skip (paired subjects.elements patterns) whole).length =
      (patternsLeft (listElements evaluate patterns) subjects.elements).length := by
    rw [patternsLeft, map_pattern_listElements]
    exact length_skip_congr (by simp [harrangement.length]) (by simp)
  have hrest : Arrangement associative true
      (skip (paired subjects.elements patterns) whole).flatten
      (patternsLeft (listElements evaluate patterns) subjects.elements).length
      (skip (paired subjects.elements patterns) whole) :=
    ⟨hlength, fun run hrun => harrangement.nonempty run (mem_of_mem_skip hrun), List.Perm.refl _,
      by simp, fun hassociative run hrun =>
        harrangement.single hassociative run (mem_of_mem_skip hrun)⟩
  rcases hrest.exists_like (@perm_skip_of_meets _ evaluate _ _ _ _ h harrangement hmeets) with
    ⟨runs, hruns, hlike⟩
  refine ⟨goesOn_iff.mpr hskip, runs, hruns, ?_⟩
  rw [patternsLeft_listElements] at hfound ⊢
  exact Element.exists_of_like hevaluate (forall₂_wrap hlike) hfound

theorem forall₂_getElem? {α β : Type} {R : α → β → Prop} {list : List α} {other : List β}
    (h : List.Forall₂ R list other) {i : Nat} {a : α} {b : β} (ha : list[i]? = some a)
    (hb : other[i]? = some b) : R a b := by
  rcases List.getElem?_eq_some_iff.mp ha with ⟨hi, rfl⟩
  rcases List.getElem?_eq_some_iff.mp hb with ⟨hi', rfl⟩
  exact h.get hi hi'

theorem beq_of_mem_search {pattern subject : Atom} (hconstant : pattern.isConstant = true)
    (hany : pattern.isAny = false) (hplain : pattern.isStructured = false)
    (hfound : found ∈ (search evaluate pattern subject binds).alternatives) :
    (pattern == subject) = true := by
  cases pattern with
  | typeUniverse mark => exact (Matcher.mem_ofLeaf hfound).1
  | root name mark =>
      rw [search_root, hany] at hfound
      exact (Matcher.mem_ofLeaf hfound).1
  | literal value type mark => exact (Matcher.mem_ofLeaf hfound).1
  | operator op mark => exact (Matcher.mem_ofLeaf hfound).1
  | var name type guard index mark =>
      have hindex : (index != 0) = true := hconstant
      rw [search_var, if_pos hindex] at hfound
      exact (Matcher.mem_ofBound hfound).1
  | lambda parameter body mark =>
      rw [search_lambda, Matcher.ofStructure] at hfound
      simp only [hconstant, if_true] at hfound
      split at hfound
      · assumption
      · cases hfound
  | sequence s mark => cases hplain
  | propertySet properties mark => cases hplain
  | application head argument bound mark => cases hplain

/-- If no constant pattern could take anything but its equals, then an arrangement for which
anything is found is settled. -/
theorem settled_of_found (h : Discerned wrapper patterns subjects.elements)
    (hplain : ∀ pattern ∈ patterns, pattern.isConstant = true →
      pattern.isAny = false ∧ pattern.isStructured = false)
    (harrangement : Arrangement associative true subjects.elements patterns.length whole)
    (hfound : found ∈ (Element.matchAll (listElements evaluate patterns)
      (whole.map wrapper.wrap) binds).alternatives) :
    Settled patterns subjects.elements whole := by
  have hchain := (@Element.forall₂_of_mem_matchAll (fun _ => True) _
    (extending_listElements evaluate patterns) _ _ _
      (fun _ _ _ _ _ _ _ _ => trivial) trivial hfound).2
  rw [listElements_eq_map, List.forall₂_map_left_iff, List.forall₂_map_right_iff] at hchain
  intro i pattern run hpattern hrun hconstant _
  have hpatternMem : pattern ∈ patterns := List.mem_of_getElem? hpattern
  have hrunMem : run ∈ whole := List.mem_of_getElem? hrun
  rcases hplain pattern hpatternMem hconstant with ⟨hany, hparts⟩
  rcases forall₂_getElem? hchain hpattern hrun with ⟨b, b', -, -, hmem, -⟩
  have hequal : (pattern == wrapper.wrap run) = true :=
    beq_of_mem_search hconstant hany hparts hmem
  by_cases hone : run.length = 1
  · rcases List.length_eq_one_iff.mp hone with ⟨subject, rfl⟩
    exact ⟨subject, rfl, beq_symm hequal⟩
  · have hsubperm : run.Subperm subjects.elements :=
      (List.sublist_flatten_of_mem hrunMem).subperm.trans harrangement.perm.subperm
    have halike : Alike pattern (wrapper.wrap run) :=
      h pattern (List.mem_append_left _ hpatternMem) _ (Or.inr ⟨run, hsubperm, rfl⟩)
        ((beq_iff _ _).mp hequal).2
    have hwrapped : (wrapper.wrap run).isStructured = true := by
      rw [Wrapper.wrap_of_length_ne_one wrapper hone]
      cases wrapper <;> rfl
    rw [Like.isStructured halike, hwrapped] at hparts
    cases hparts

end

/-!
## Transparency
-/

theorem isFailed_firstOf_iff (onEmpty : Failure) (alternatives : Stream) :
    (Outcome.firstOf onEmpty alternatives).value.isFailed = true ↔
      (Outcome.firstOf onEmpty alternatives).alternatives = [] := by
  rw [Outcome.alternatives_firstOf]
  rcases Outcome.firstAfter_cases onEmpty [] alternatives with
    ⟨hnil, hvalue⟩ | ⟨binds, tail, hhead, hvalue⟩
  · rw [Outcome.firstOf, hvalue, hnil]
    simp [Outcome.isFailed]
  · rw [Outcome.firstOf, hvalue]
    simp only [Outcome.isFailed, Bool.false_eq_true, false_iff]
    intro hnil
    rw [hnil] at hhead
    cases hhead

namespace Sequence

variable {wrapper : Wrapper} {elements : List Element} {subjects : Sequence Atom} {binds : Bindings}

theorem isFailed_matchCommutative_iff :
    (matchCommutative elements subjects binds).value.isFailed = true ↔
      (matchCommutative elements subjects binds).alternatives = [] := by
  unfold matchCommutative
  split
  · rw [Traced.alternatives_andThen]
    unfold Traced.andThen
    cases (eliminateConstants elements subjects).value with
    | error failure => exact ⟨fun _ => rfl, fun _ => rfl⟩
    | ok left => exact isFailed_firstOf_iff _ _
  · exact ⟨fun _ => rfl, fun _ => rfl⟩

theorem isFailed_matchArrangements_iff {atoms : List Atom} :
    (matchArrangements wrapper elements atoms binds).value.isFailed = true ↔
      (matchArrangements wrapper elements atoms binds).alternatives = [] := by
  unfold matchArrangements
  simp only
  split
  · split
    · simp [Traced.of, Outcome.isFailed, Traced.alternatives, Outcome.bindings, Outcome.stream]
    · exact ⟨fun _ => rfl, fun _ => rfl⟩
  · split
    · exact ⟨fun _ => rfl, fun _ => rfl⟩
    · split
      · exact isFailed_firstOf_iff _ _
      · exact isFailed_firstOf_iff _ _

theorem isFailed_matchAssociativeCommutative_iff :
    (matchAssociativeCommutative wrapper elements subjects binds).value.isFailed = true ↔
      (matchAssociativeCommutative wrapper elements subjects binds).alternatives = [] := by
  unfold matchAssociativeCommutative
  rw [Traced.alternatives_andThen]
  unfold Traced.andThen
  cases (eliminateConstants elements subjects).value with
  | error failure => exact ⟨fun _ => rfl, fun _ => rfl⟩
  | ok left => exact isFailed_matchArrangements_iff

end Sequence

section

variable {wrapper : Wrapper} {evaluate : GuardEvaluator} {patterns : List Atom}
  {subjects : Sequence Atom} {binds : Bindings}

theorem FindEqual.of_agrees (f : Option String → Option String) {found other : Bindings → Prop}
    (hfound : ∀ binds, found binds → ∃ equal, other equal ∧ NameMap.Agree f binds equal)
    (hother : ∀ equal, other equal → ∃ binds, found binds ∧ NameMap.Agree f equal binds) :
    FindEqual found other := by
  constructor
  · intro binds hbinds
    rcases hfound binds hbinds with ⟨equal, hequal, hagree⟩
    exact ⟨equal, hequal, hagree.beq⟩
  · intro equal hequal
    rcases hother equal hequal with ⟨binds, hbinds, hagree⟩
    exact ⟨binds, hbinds, NameMap.Agree.beq hagree.symm⟩

theorem FindEqual.of_agree {found other : Bindings → Prop}
    (hfound : ∀ binds, found binds → other binds)
    (hother : ∀ equal, other equal → ∃ binds, found binds ∧ NameMap.Agree id equal binds) :
    FindEqual found other :=
  FindEqual.of_agrees id (fun binds hbinds => ⟨binds, hfound binds hbinds, rfl⟩) hother

theorem FindEqual.congr {found other another : Bindings → Prop} (h : FindEqual found other)
    (hsame : ∀ binds, other binds ↔ another binds) : FindEqual found another := by
  have heq : other = another := funext fun binds => propext (hsame binds)
  rwa [heq] at h

theorem findEqual_matchCommutative (hevaluate : evaluate.Agree id evaluate)
    (h : Discerned wrapper patterns subjects.elements)
    (hlength : patterns.length = subjects.length) :
    FindEqual
      (· ∈ (Sequence.matchCommutative (listElements evaluate patterns) subjects binds).alternatives)
      fun found => ∃ order : List Atom, order.Perm subjects.elements ∧
        Settled patterns subjects.elements (singles order) ∧
        found ∈ (Element.matchAll (listElements evaluate patterns) order binds).alternatives := by
  have hfaithful : Faithful
      ((listElements evaluate patterns).map (·.pattern)) subjects.elements := by
    rw [map_pattern_listElements]
    exact h.faithful
  have hlengths : (listElements evaluate patterns).length = subjects.length := by
    rwa [length_listElements]
  have hsubjects : subjects.length = subjects.elements.length := rfl
  have hleft := length_patternsLeft_add hfaithful
  have hcount : (subjectsLeft (listElements evaluate patterns) subjects.elements).length =
      (patternsLeft (listElements evaluate patterns) subjects.elements).length := by omega
  refine FindEqual.of_agree ?_ ?_
  · intro found hfound
    rcases (Sequence.mem_matchCommutative_iff hfaithful hlengths).mp hfound with
      ⟨hgoes, order, hperm, hfound⟩
    have hruns : Arrangement false true _ _ (singles order) :=
      arrangement_singles false true hperm (by simp)
    rw [hcount] at hruns
    rcases @exists_settled_arrangement wrapper _ _ _ _ _ _ _ h hgoes hruns
      (by rwa [map_wrap_singles]) with
      ⟨whole, harrangement, hsettled, hfound⟩
    have hsingles := harrangement.eq_singles (hsubjects.symm.trans hlength.symm)
    rw [hsingles] at hsettled
    rw [hsingles, map_wrap_singles] at hfound
    exact ⟨whole.flatten, harrangement.perm, hsettled, hfound⟩
  · rintro found ⟨order, hperm, hsettled, hfound⟩
    have harrangement : Arrangement false true _ _ (singles order) :=
      arrangement_singles false true hperm (by simp)
    rw [← hsubjects, ← hlength] at harrangement
    rcases exists_arrangement_left hevaluate h harrangement hsettled
      (by rwa [map_wrap_singles]) with
      ⟨hgoes, runs, hruns, other, hother, hagree⟩
    rw [hruns.eq_singles hcount, map_wrap_singles] at hother
    exact ⟨other, (Sequence.mem_matchCommutative_iff hfaithful hlengths).mpr
      ⟨hgoes, runs.flatten, hruns.perm, hother⟩, hagree⟩

theorem findEqual_matchAssociativeCommutative (hevaluate : evaluate.Agree id evaluate)
    (h : Discerned wrapper patterns subjects.elements) :
    FindEqual
      (· ∈ (Sequence.matchAssociativeCommutative wrapper (listElements evaluate patterns) subjects
        binds).alternatives)
      fun found => ∃ runs, Arrangement true true subjects.elements patterns.length runs ∧
        Settled patterns subjects.elements runs ∧
        found ∈ (Element.matchAll (listElements evaluate patterns) (runs.map wrapper.wrap)
          binds).alternatives := by
  have hfaithful : Faithful
      ((listElements evaluate patterns).map (·.pattern)) subjects.elements := by
    rw [map_pattern_listElements]
    exact h.faithful
  refine FindEqual.of_agree ?_ ?_
  · intro found hfound
    rcases (Sequence.mem_matchAssociativeCommutative_iff hfaithful).mp hfound with
      ⟨hgoes, runs, hruns, hfound⟩
    exact exists_settled_arrangement h hgoes hruns hfound
  · rintro found ⟨runs, harrangement, hsettled, hfound⟩
    rcases exists_arrangement_left hevaluate h harrangement hsettled hfound with
      ⟨hgoes, left, hleft, other, hother, hagree⟩
    exact ⟨other, (Sequence.mem_matchAssociativeCommutative_iff hfaithful).mpr
      ⟨hgoes, left, hleft, hother⟩, hagree⟩

end

/-- Elimination of constants picks out the arrangements in which constants meet their equals.  If
no constant pattern could take anything but its equals, then it makes no difference. -/
theorem Engine.elimination_transparent (engine : Engine)
    (hnatives : engine.natives.Agree id engine.natives) (wrapper : Wrapper) (patterns : List Atom)
    (subjects : Sequence Atom) (binds : Bindings)
    (hdiscerned : Discerned wrapper patterns subjects.elements) :
    let elements := listElements engine.evaluate patterns
    let commutative := Sequence.matchCommutative elements subjects binds
    let both := Sequence.matchAssociativeCommutative wrapper elements subjects binds
    (patterns.length = subjects.length → FindEqual (· ∈ commutative.alternatives) fun found =>
      ∃ order : List Atom, order.Perm subjects.elements ∧
        Settled patterns subjects.elements (singles order) ∧
        found ∈ (Element.matchAll elements order binds).alternatives) ∧
    (FindEqual (· ∈ both.alternatives) fun found =>
      ∃ runs, Arrangement true true subjects.elements patterns.length runs ∧
        Settled patterns subjects.elements runs ∧
        found ∈ (Element.matchAll elements (runs.map wrapper.wrap) binds).alternatives) ∧
    ((∀ pattern ∈ patterns, pattern.isConstant = true →
        pattern.isAny = false ∧ pattern.isStructured = false) →
      (patterns.length = subjects.length → FindEqual (· ∈ commutative.alternatives)
        (· ∈ (Element.matchOrders elements subjects.elements binds).bindings)) ∧
      FindEqual (· ∈ both.alternatives)
        (· ∈ (Sequence.matchArrangements wrapper elements subjects.elements binds).alternatives)) ∧
    (commutative.value.isFailed = true ↔ commutative.alternatives = []) ∧
    (both.value.isFailed = true ↔ both.alternatives = []) := by
  intro elements commutative both
  have hevaluate : engine.evaluate.Agree id engine.evaluate := agree_evaluate hnatives rfl
  have hcommutative := fun hlength =>
    @findEqual_matchCommutative _ _ _ _ binds hevaluate hdiscerned hlength
  have hboth := @findEqual_matchAssociativeCommutative _ _ _ _ binds hevaluate hdiscerned
  refine ⟨hcommutative, hboth, ?_, Sequence.isFailed_matchCommutative_iff,
    Sequence.isFailed_matchAssociativeCommutative_iff⟩
  intro hplain
  constructor
  · intro hlength
    refine (hcommutative hlength).congr fun found => ?_
    rw [Element.mem_matchOrders_iff]
    refine exists_congr fun order => and_congr_right fun hperm => ?_
    rw [and_iff_right_iff_imp]
    intro hfound
    have harrangement : Arrangement true true _ _ (singles order) :=
      arrangement_singles true true hperm (by simp)
    have hsubjects : subjects.elements.length = patterns.length := hlength.symm
    rw [hsubjects] at harrangement
    exact settled_of_found hdiscerned hplain harrangement (by rwa [map_wrap_singles])
  · refine hboth.congr fun found => ?_
    rw [Sequence.mem_matchArrangements_iff, length_listElements]
    refine exists_congr fun runs => and_congr_right fun harrangement => ?_
    rw [and_iff_right_iff_imp]
    exact settled_of_found hdiscerned hplain harrangement

/-!
### Numbers in any order
-/

def PropertySet.orderless : Properties :=
  ⟨some (.boolean true), some (.boolean true), .none, .none, .none⟩

theorem cases_of_subperm_pair {α : Type} {a b : α} {run : List α} (h : run.Subperm [a, b]) :
    run = [] ∨ run = [a] ∨ run = [b] ∨ run = [a, b] ∨ run = [b, a] := by
  rcases h with ⟨part, hperm, hpart⟩
  match part, hpart with
  | [], _ => exact Or.inl hperm.nil_eq.symm
  | [c], hpart =>
      rw [← List.singleton_perm.mp hperm]
      rcases List.mem_pair.mp (List.singleton_sublist.mp hpart) with rfl | rfl
      · simp
      · simp
  | c :: d :: rest, hpart =>
      have heq : c :: d :: rest = [a, b] := hpart.eq_of_length_le (by simp)
      rw [heq] at hperm
      match run, hperm.length_eq with
      | [first, second], _ =>
          rcases List.mem_pair.mp (hperm.mem_iff.mpr List.mem_cons_self) with rfl | rfl
          · rw [← List.singleton_perm.mp ((List.perm_cons _).mp hperm)]
            simp
          · have hswap := (List.Perm.swap a first []).trans hperm
            rw [← List.singleton_perm.mp ((List.perm_cons _).mp hswap)]
            simp

theorem discerned_numbers :
    Discerned (.sequence .orderless) [integer 1, free "x" any] [integer 2, integer 1] := by
  let wrapper : Wrapper := .sequence .orderless
  let around : List Atom := [integer 1, free "x" any, integer 2, wrapper.wrap [],
    wrapper.wrap [integer 2, integer 1], wrapper.wrap [integer 1, integer 2]]
  have hnodup : (around.map fingerprint).Nodup := by decide +kernel
  have helements : ∀ a ∈ [integer 1, free "x" any] ++ [integer 2, integer 1], a ∈ around := by
    intro a ha
    simp only [List.cons_append, List.nil_append, List.mem_cons, List.not_mem_nil, or_false] at ha
    rcases ha with rfl | rfl | rfl | rfl <;> simp [around]
  have hruns : ∀ run : List Atom, run.Subperm [integer 2, integer 1] →
      wrapper.wrap run ∈ around := by
    intro run hrun
    rcases cases_of_subperm_pair hrun with rfl | rfl | rfl | rfl | rfl <;>
      simp [around, Wrapper.wrap]
  intro a ha b hb hfingerprint
  have hb : b ∈ around := by
    rcases hb with hb | ⟨run, hrun, rfl⟩
    · exact helements b hb
    · exact hruns run hrun
  rw [List.inj_on_of_nodup_map hnodup (helements a ha) hb hfingerprint]
  exact Like.refl b

/-- One is taken away from both sides, and the variable takes what is left. -/
theorem Engine.elimination_transparent_numbers :
    let elements := listElements (Engine.mk Native.standard 8 []).evaluate [integer 1, free "x" any]
    let subjects : Sequence Atom := ⟨.orderless, [integer 2, integer 1]⟩
    FindEqual (· ∈ (Sequence.matchCommutative elements subjects .empty).alternatives)
        (· ∈ (Element.matchOrders elements subjects.elements .empty).bindings) ∧
      (Sequence.matchCommutative elements subjects .empty).value.isFailed = false := by
  intro elements subjects
  have h := Engine.elimination_transparent (Engine.mk Native.standard 8 []) Native.agree_standard
    (.sequence .orderless) [integer 1, free "x" any] subjects .empty discerned_numbers
  have hplain : ∀ pattern ∈ [integer 1, free "x" any], pattern.isConstant = true →
      pattern.isAny = false ∧ pattern.isStructured = false := by
    intro pattern hpattern _
    rcases List.mem_pair.mp hpattern with rfl | rfl
    · exact ⟨rfl, rfl⟩
    · exact ⟨rfl, rfl⟩
  exact ⟨(h.2.2.1 hplain).1 rfl, by decide +kernel⟩

/-!
### A match that is lost
-/

/-- The first pattern takes the subject that it equals.  The second pattern, which denies the
commutative law, is left with the subject that has it; the other way round both would match. -/
theorem Sequence.matchCommutative_loses_match :
    let plain := Atom.sequence ⟨.none, [integer 1]⟩ .new
    let lawful (law : Bool) :=
      Atom.sequence ⟨⟨.none, some (boolean law), .none, .none, .none⟩, [integer 1]⟩ .new
    let elements := listElements (Engine.mk Native.standard 8 []).evaluate [plain, lawful false]
    let subjects : Sequence Atom :=
      ⟨⟨.none, some (boolean true), .none, .none, .none⟩, [plain, lawful true]⟩
    (matchCommutative elements subjects .empty).value.isFailed = true ∧
      ¬FindEqual (· ∈ (matchCommutative elements subjects .empty).alternatives)
        (· ∈ (Element.matchOrders elements subjects.elements .empty).bindings) := by
  intro plain lawful elements subjects
  have hfailed : (matchCommutative elements subjects .empty).value.isFailed = true := by
    decide +kernel
  refine ⟨hfailed, fun hequal => ?_⟩
  have hfound :
      (Element.matchOrders elements subjects.elements .empty).bindings.isEmpty = false := by
    decide +kernel
  rcases List.isEmpty_eq_false_iff_exists_mem.mp hfound with ⟨found, hmem⟩
  rcases hequal.2 found hmem with ⟨binds, hbinds, -⟩
  rw [Traced.alternatives_eq_nil_of_isFailed hfailed] at hbinds
  cases hbinds

end Equational
