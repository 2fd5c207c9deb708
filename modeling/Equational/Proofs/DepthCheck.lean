import Equational.Proofs.Instances
import Equational.Proofs.PlainMatching
import Equational.Proofs.WellMade

/-!
# The comparison of depths

A pattern that is deeper than its subject is given up before types and parts are
compared.  Whatever finds anything is no deeper than its subject, and so are the
parts of a pattern that finds anything part by part; hence the comparison would
have found nothing.  There is one exception.  Where the bracketing of the subjects
does not matter, a run of them is wrapped up as a new atom, which is deeper than
they are, and a pattern may be as much deeper as wrapping adds.
-/

namespace Equational

open Matcher

/-!
## What the check skips

A match that is not decided before comes to the comparison of depths, and goes on with types and
parts.  What is to be shown is that these find nothing where the pattern is deeper.
-/

namespace Matcher

def compare (pattern : Atom) (type parts : Matcher) : Matcher := fun subject binds =>
  ((type subject.type binds).mapFailure fun failure =>
      (Failure.between .typesDiffer pattern subject).causedBy failure)
    |>.continued fun binds => parts subject binds

theorem mem_compare {pattern subject : Atom} {type parts : Matcher} {binds found : Bindings}
    (h : found ∈ (compare pattern type parts subject binds).alternatives) :
    ∃ middle, found ∈ (parts subject middle).alternatives := by
  unfold compare at h
  rw [Traced.alternatives_continued, List.mem_flatMap] at h
  rcases h with ⟨middle, -, hfound⟩
  exact ⟨middle, hfound⟩

end Matcher

namespace Atom

/-- The comparison that is left once depths were compared.  Kinds without parts do not come so
far. -/
def comparison (evaluate : GuardEvaluator) : Atom → Matcher
  | lambda parameter body mark =>
    compare (lambda parameter body mark) anyType
      (lambdaParts (lambda parameter body mark)
        ⟨parameter, watched parameter (search evaluate parameter)⟩
        ⟨body, watched body (search evaluate body)⟩)
  | sequence s mark =>
    compare (sequence s mark) anyType (sequenceParts (sequence s mark) (s.pattern evaluate))
  | propertySet properties mark =>
    compare (propertySet properties mark) anyType
      (propertyParts (propertySet properties mark) (lawElements evaluate properties))
  | application head argument bound mark =>
    compare (application head argument bound mark) (headType evaluate head)
      (applicationParts (application head argument bound mark)
        (watched head (search evaluate head)) (watched argument (search evaluate argument))
        (argumentElements evaluate argument))
  | pattern => fun subject _ => failBetween .kindsDiffer pattern subject

/-- A match comes to the comparison of depths: the pattern neither accepts everything nor is a
variable, and if it is constant, then it has parts and is not equal to the subject. -/
structure ReachesDepths (pattern subject : Atom) : Prop where
  notAny : pattern.isAny = false
  notFree : pattern.isFreeVar = false
  notBound : pattern.isBoundVar = false
  constant : pattern.isConstant = true →
    pattern.isStructured = true ∧ (pattern == subject) = false

/-- A match that comes so far compares depths, and goes on only if the pattern is not deeper. -/
theorem ReachesDepths.search_eq {pattern subject : Atom} (h : pattern.ReachesDepths subject)
    (evaluate : GuardEvaluator) (binds : Bindings) :
    search evaluate pattern subject binds =
      if subject.depth < pattern.depth then failBetween .patternDeeper pattern subject
      else comparison evaluate pattern subject binds := by
  have hstructure : ∀ type parts : Matcher, ofStructure pattern type parts subject binds =
      if subject.depth < pattern.depth then failBetween .patternDeeper pattern subject
      else compare pattern type parts subject binds := by
    intro type parts
    unfold ofStructure
    cases hconstant : pattern.isConstant with
    | false => rfl
    | true =>
        rcases h.constant hconstant with ⟨hstructured, hdifferent⟩
        simp only [hdifferent, hstructured, if_true, Bool.false_eq_true, if_false]
        rfl
  have hleaf : pattern.isConstant = true → pattern.isStructured = false → False := by
    intro hconstant hplain
    have hstructured := (h.constant hconstant).1
    rw [hplain] at hstructured
    cases hstructured
  cases pattern with
  | lambda parameter body mark =>
      rw [search_lambda]
      exact hstructure _ _
  | sequence s mark =>
      cases s
      rw [search_sequence]
      exact hstructure _ _
  | propertySet properties mark =>
      rw [search_propertySet]
      exact hstructure _ _
  | application head argument bound mark =>
      rw [search_application]
      exact hstructure _ _
  | var name type guard index mark =>
      have hnotFree : (index == 0) = false := h.notFree
      have hnotBound : (index != 0) = false := h.notBound
      rw [bne, hnotFree] at hnotBound
      cases hnotBound
  | _ => exact (hleaf rfl rfl).elim

end Atom

/-!
## Depths of what is met

Normalization makes nothing deeper.  Only wrapping up a run adds levels: one for the argument
list, and one for the application.
-/

namespace Atom

theorem propertiesDepth_le {properties : Properties} {d : Nat}
    (h : ∀ law value, properties.get law = some value → value.depth ≤ d) :
    propertiesDepth properties ≤ d := by
  have hoption : ∀ law, optionDepth (properties.get law) ≤ d := by
    intro law
    cases hvalue : properties.get law with
    | none => exact Nat.zero_le d
    | some value => exact h law value hvalue
  rcases properties with ⟨a, c, i, b, e⟩
  have ha := hoption .associative
  have hc := hoption .commutative
  have hi := hoption .idempotent
  have hb := hoption .absorber
  have he := hoption .identity
  simp only [PropertySet.get] at ha hc hi hb he
  simp only [propertiesDepth, Nat.max_le]
  exact ⟨ha, hc, hi, hb, he⟩

theorem depth_le_propertiesDepth {properties : Properties} {law : Law} {value : Atom}
    (h : properties.get law = some value) : value.depth ≤ propertiesDepth properties := by
  have hoption : optionDepth (properties.get law) ≤ propertiesDepth properties := by
    rcases properties with ⟨a, c, i, b, e⟩
    cases law <;> simp only [PropertySet.get, propertiesDepth] <;> omega
  rwa [h] at hoption

theorem depth_le_of_effective {properties : Properties} {law : Law} {value : Atom}
    (h : properties.effective? law = some value) : value.depth ≤ propertiesDepth properties := by
  rcases PropertySet.get_or_false_of_effective h with hget | rfl
  · exact depth_le_propertiesDepth hget
  · exact Nat.zero_le _

theorem listDepth_normalize_le (properties : Properties) (list : List Atom) :
    listDepth (Sequence.normalize properties list) ≤ listDepth list := by
  refine listDepth_le (Sequence.forall_mem_normalize ?_ fun atom => depth_le_listDepth)
  intro s mark hs atom hatom
  rcases s with ⟨inner, elements⟩
  have hlt : atom.depth < (sequence ⟨inner, elements⟩ mark).depth :=
    Nat.lt_succ_of_le (depth_le_listDepth hatom)
  omega

end Atom

/-- How much deeper than the deepest of its atoms a run can be once it is wrapped up. -/
def Wrapper.levels : Wrapper → Nat
  | .sequence _ => 1
  | .application _ _ => 2

theorem Wrapper.levels_le (wrapper : Wrapper) : wrapper.levels ≤ 2 := by
  cases wrapper with
  | sequence properties => exact Nat.le_succ 1
  | application head properties => exact Nat.le_refl 2

theorem Wrapper.depth_of_applied {head head' : Atom} {laws properties : Properties}
    (h : (if head.operator?.isSome then Wrapper.application head laws else .sequence laws) =
      .application head' properties) : head'.depth = 0 := by
  cases head with
  | operator op mark =>
      cases h
      rfl
  | _ => cases h

theorem Wrapper.has_depth_le {wrapper : Wrapper} (list : List Atom)
    (hhead : ∀ head properties, wrapper = .application head properties → head.depth = 0) :
    wrapper.Has (fun atom => atom.depth ≤ Atom.listDepth list + wrapper.levels) list := by
  have hrun : ∀ (properties : Properties) (run : List Atom), run.Subperm list →
      (Atom.sequence (.ofList properties run) .new).depth ≤ Atom.listDepth list + 1 := by
    intro properties run hsub
    have hnormal := Atom.listDepth_normalize_le properties run
    have hlist : Atom.listDepth run ≤ Atom.listDepth list :=
      Atom.listDepth_le fun atom hatom => Atom.depth_le_listDepth (hsub.subset hatom)
    change Atom.listDepth (Sequence.normalize properties run) + 1 ≤ _
    omega
  refine has_of_wrapped
    (fun atom hatom => Nat.le_add_right_of_le (Atom.depth_le_listDepth hatom)) ?_
  intro run hsub
  cases wrapper with
  | sequence properties => exact hrun properties run hsub
  | application head properties =>
      have hlist := hrun properties run hsub
      have hzero := hhead head properties rfl
      simp only [Atom.depth, levels] at hlist ⊢
      omega

/-!
## Lists of patterns

Patterns that find anything are no deeper than the subjects.  Those that elimination takes away
equal a subject, and the others meet runs of the subjects.
-/

namespace Element

def Fits (element : Element) : Prop :=
  ∀ subject binds found, found ∈ (element.matcher subject binds).alternatives →
    element.pattern.depth ≤ subject.depth

theorem depth_le_of_mem_matchAll {elements : List Element}
    (hfits : ∀ element ∈ elements, element.Fits) {subjects : List Atom} {binds found : Bindings}
    (hfound : found ∈ (matchAll elements subjects binds).alternatives) {d : Nat}
    (hsubjects : ∀ subject ∈ subjects, subject.depth ≤ d) :
    ∀ element ∈ elements, element.pattern.depth ≤ d := by
  induction elements generalizing subjects binds with
  | nil => exact List.forall_mem_nil _
  | cons element rest ih =>
      cases subjects with
      | nil => cases length_eq_of_mem_matchAll hfound
      | cons subject subjects =>
          rw [alternatives_matchAll_cons, List.mem_flatMap] at hfound
          rcases hfound with ⟨middle, hmiddle, hfound⟩
          rw [List.forall_mem_cons] at hfits hsubjects
          exact List.forall_mem_cons.mpr
            ⟨Nat.le_trans (hfits.1 subject binds middle hmiddle) hsubjects.1,
              ih hfits.2 hfound hsubjects.2⟩

end Element

namespace Elimination

variable {patterns subjects : List Atom} {taken final : Taken}

def Taken.Equal (patterns subjects : List Atom) (taken : Taken) : Prop :=
  ∀ p ∈ taken.patterns, ∀ pattern, patterns[p]? = some pattern →
    ∃ subject ∈ subjects, (subject == pattern) = true

theorem equal_of_pair {positions candidates : List Nat}
    (h : pair patterns subjects positions candidates taken = .ok final)
    (htaken : taken.Equal patterns subjects) : final.Equal patterns subjects := by
  induction positions generalizing candidates taken with
  | nil =>
      cases h
      exact htaken
  | cons p ps ih =>
      unfold pair at h
      split at h
      · exact ih h htaken
      · rename_i pattern hpattern
        split at h
        · rename_i s rest hdrop
          refine ih h (List.forall_mem_cons.mpr ⟨?_, htaken⟩)
          intro other hother
          rw [hpattern, Option.some_inj] at hother
          have hhead := List.head?_dropWhile_not (fun s => !(subjects[s]?.any (· == pattern)))
            candidates
          rw [hdrop, List.head?_cons] at hhead
          simp only [Bool.not_eq_false', Option.any_eq_true] at hhead
          rcases hhead with ⟨subject, hsubject, hequal⟩
          exact ⟨subject, List.mem_of_getElem? hsubject, hother ▸ hequal⟩
        · split at h
          · exact ih h htaken
          · cases h

theorem equal_of_pairAll {pool entries : Sequence.Pool}
    (h : pairAll patterns subjects pool entries taken = .ok final)
    (htaken : taken.Equal patterns subjects) : final.Equal patterns subjects := by
  induction entries generalizing taken with
  | nil =>
      cases h
      exact htaken
  | cons entry rest ih =>
      unfold pairAll at h
      split at h
      · cases h
      · exact ih h (equal_of_pair ‹_› htaken)

theorem mem_remaining_or_mem {α : Type} {positions : List Nat} {list : List α} {a : α}
    (h : a ∈ list) : a ∈ remaining positions list ∨ ∃ p ∈ positions, list[p]? = some a := by
  rcases List.mem_iff_getElem?.mp h with ⟨p, hp⟩
  by_cases hmem : p ∈ positions
  · exact Or.inr ⟨p, hmem, hp⟩
  · refine Or.inl (List.mem_map.mpr ⟨(a, p), List.mem_filter.mpr ⟨?_, by simpa using hmem⟩, rfl⟩)
    exact List.mk_mem_zipIdx_iff_getElem?.mpr hp

end Elimination

namespace Sequence

open Elimination

theorem mem_left_or_equal {elements left : List Element} {subjects : Sequence Atom}
    {atoms : List Atom} (h : (eliminateConstants elements subjects).value = .ok (left, atoms))
    {element : Element} (hmem : element ∈ elements) :
    element ∈ left ∨ ∃ subject ∈ subjects.elements, (subject == element.pattern) = true := by
  unfold eliminateConstants at h
  simp only at h
  split at h
  · rename_i taken htaken
    simp only [Traced.of, Except.ok.injEq, Prod.mk.injEq] at h
    rw [← h.1]
    have hequal : taken.Equal (elements.map (·.pattern)) subjects.elements :=
      equal_of_pairAll htaken (List.forall_mem_nil _)
    refine (mem_remaining_or_mem hmem).imp_right ?_
    rintro ⟨p, hp, hget⟩
    exact hequal p hp element.pattern (by rw [List.getElem?_map, hget]; rfl)
  · split at h
    · cases h
    · cases h

section

variable {wrapper : Wrapper} {elements : List Element} {subjects : Sequence Atom}
  {binds found : Bindings} {d : Nat}

theorem depth_le_of_left {left : List Element} {atoms : List Atom}
    (h : (eliminateConstants elements subjects).value = .ok (left, atoms))
    (hsubjects : ∀ subject ∈ subjects.elements, subject.depth ≤ d)
    (hleft : ∀ element ∈ left, element.pattern.depth ≤ d) :
    ∀ element ∈ elements, element.pattern.depth ≤ d := by
  intro element hmem
  rcases mem_left_or_equal h hmem with hmem | ⟨subject, hsubject, hequal⟩
  · exact hleft element hmem
  · rw [← ((Atom.beq_iff _ _).mp hequal).1]
    exact hsubjects subject hsubject

variable (hfits : ∀ element ∈ elements, element.Fits)
include hfits

theorem depth_le_of_mem_matchCommutative
    (hfound : found ∈ (matchCommutative elements subjects binds).alternatives)
    (hsubjects : ∀ subject ∈ subjects.elements, subject.depth ≤ d) :
    ∀ element ∈ elements, element.pattern.depth ≤ d := by
  unfold matchCommutative at hfound
  split at hfound
  · rw [Traced.alternatives_andThen] at hfound
    cases hvalue : (eliminateConstants elements subjects).value with
    | error failure =>
        rw [hvalue] at hfound
        cases hfound
    | ok left =>
        rcases left with ⟨left, atoms⟩
        rw [hvalue] at hfound
        simp only [Outcome.alternatives_firstOf, Element.mem_matchOrders_iff] at hfound
        rcases hfound with ⟨order, horder, hfound⟩
        have hsub := sublist_of_eliminateConstants hvalue
        refine depth_le_of_left hvalue hsubjects (Element.depth_le_of_mem_matchAll
          (fun element hmem => hfits element (hsub.1.subset hmem)) hfound ?_)
        exact fun subject hsubject => hsubjects subject (hsub.2.subset (horder.subset hsubject))
  · cases hfound

theorem depth_le_of_arrangement {associative commutative : Bool} {list : List Atom} {k : Nat}
    {runs : List (List Atom)} (h : Arrangement associative commutative list k runs)
    (hruns : wrapper.Has (fun atom => atom.depth ≤ d) list)
    (hfound : found ∈ (Element.matchAll elements (runs.map wrapper.wrap) binds).alternatives) :
    ∀ element ∈ elements, element.pattern.depth ≤ d := by
  refine Element.depth_le_of_mem_matchAll hfits hfound ?_
  intro subject hsubject
  rcases List.mem_map.mp hsubject with ⟨run, hrun, rfl⟩
  exact hruns run ((List.sublist_flatten_of_mem hrun).subperm.trans h.perm.subperm)

theorem depth_le_of_mem_matchAssociativeCommutative
    (hfound : found ∈
      (matchAssociativeCommutative wrapper elements subjects binds).alternatives)
    (hruns : wrapper.Has (fun atom => atom.depth ≤ d) subjects.elements) :
    ∀ element ∈ elements, element.pattern.depth ≤ d := by
  unfold matchAssociativeCommutative at hfound
  rw [Traced.alternatives_andThen] at hfound
  cases hvalue : (eliminateConstants elements subjects).value with
  | error failure =>
      rw [hvalue] at hfound
      cases hfound
  | ok left =>
      rcases left with ⟨left, atoms⟩
      rw [hvalue] at hfound
      simp only [mem_matchArrangements_iff] at hfound
      rcases hfound with ⟨runs, harrangement, hfound⟩
      have hsub := sublist_of_eliminateConstants hvalue
      exact depth_le_of_left hvalue hruns.forall_mem (depth_le_of_arrangement
        (fun element hmem => hfits element (hsub.1.subset hmem)) harrangement
        (hruns.mono hsub.2.subperm) hfound)

/-- Patterns that find anything are no deeper than the subjects and, where there are fewer patterns
than associative subjects, the runs of these that may be wrapped up. -/
theorem depth_le_of_mem_matchElements
    (hfound : found ∈ (matchElements wrapper elements subjects binds).alternatives)
    (hsubjects : ∀ subject ∈ subjects.elements, subject.depth ≤ d)
    (hruns : subjects.properties.isAssociative = true → elements.length < subjects.length →
      wrapper.Has (fun atom => atom.depth ≤ d) subjects.elements) :
    ∀ element ∈ elements, element.pattern.depth ≤ d := by
  unfold matchElements at hfound
  simp only at hfound
  split at hfound
  · split at hfound
    · exact depth_le_of_mem_matchCommutative hfits hfound hsubjects
    · exact Element.depth_le_of_mem_matchAll hfits hfound hsubjects
  · split at hfound
    · rename_i hless
      rw [Bool.and_eq_true, decide_eq_true_iff] at hless
      have hwrapped := hruns hless.2 hless.1
      split at hfound
      · exact depth_le_of_mem_matchAssociativeCommutative hfits hfound hwrapped
      · rcases mem_matchAssociative_iff.mp hfound with ⟨runs, harrangement, hfound⟩
        exact depth_le_of_arrangement hfits harrangement hwrapped hfound
    · cases hfound

end

end Sequence

/-!
## Atoms

By induction over the pattern: whatever finds anything is no deeper than its subject, unless runs
of arguments are wrapped up on the way.
-/

namespace Atom

variable {evaluate : GuardEvaluator} {pattern subject : Atom} {binds found : Bindings}

theorem depth_le_of_mem_search
    (hfound : found ∈ (search evaluate pattern subject binds).alternatives) :
    pattern.depth ≤ subject.depth := by
  have hleaf : ∀ {found}, found ∈ (ofLeaf pattern subject binds).alternatives →
      pattern.depth ≤ subject.depth := fun h =>
    Nat.le_of_eq ((beq_iff _ _).mp (mem_ofLeaf h).1).1
  have hstructure : ∀ {type parts : Matcher},
      found ∈ (ofStructure pattern type parts subject binds).alternatives →
        pattern.depth ≤ subject.depth := by
    intro type parts h
    rcases mem_ofStructure h with ⟨-, hequal, -⟩ | ⟨hdepth, -⟩
    · exact Nat.le_of_eq ((beq_iff _ _).mp hequal).1
    · exact hdepth
  cases pattern with
  | typeUniverse mark => exact hleaf hfound
  | root name mark => exact Nat.zero_le _
  | literal value type mark => exact hleaf hfound
  | operator op mark => exact hleaf hfound
  | var name type guard index mark => exact Nat.zero_le _
  | lambda parameter body mark =>
      rw [search_lambda] at hfound
      exact hstructure hfound
  | sequence s mark =>
      cases s
      rw [search_sequence] at hfound
      exact hstructure hfound
  | propertySet properties mark =>
      rw [search_propertySet] at hfound
      exact hstructure hfound
  | application head argument bound mark =>
      rw [search_application] at hfound
      exact hstructure hfound

theorem fits_element (evaluate : GuardEvaluator) (atom : Atom) : (element evaluate atom).Fits :=
  fun _ _ _ hfound => depth_le_of_mem_search hfound

theorem fits_listElements (evaluate : GuardEvaluator) (list : List Atom) :
    ∀ element ∈ listElements evaluate list, element.Fits := by
  rw [listElements_eq_map]
  exact List.forall_mem_map.mpr fun atom _ => fits_element evaluate atom

theorem propertiesDepth_le_of_mem_matchLaws {laws properties : Properties}
    (hfound : found ∈ ((lawElements evaluate laws).matchLaws properties binds).alternatives) :
    propertiesDepth laws ≤ propertiesDepth properties := by
  unfold PropertySet.matchLaws at hfound
  split at hfound
  · cases hfound
  · rename_i values hvalues
    have hspecified : ∀ law value, laws.get law = some value →
        element evaluate value ∈ (lawElements evaluate laws).specified.map (·.2) := by
      intro law value hvalue
      refine List.mem_map.mpr ⟨(law, element evaluate value), ?_, rfl⟩
      refine List.mem_filterMap.mpr ⟨law, by cases law <;> simp [Law.all], ?_⟩
      rw [PropertySet.get_lawElements, hvalue]
      rfl
    have hfits : ∀ e ∈ (lawElements evaluate laws).specified.map (·.2), e.Fits := by
      intro e he
      rcases List.mem_map.mp he with ⟨entry, hentry, rfl⟩
      rcases List.mem_filterMap.mp hentry with ⟨law, -, hlaw⟩
      rcases Option.map_eq_some_iff.mp hlaw with ⟨e, hget, rfl⟩
      rw [PropertySet.get_lawElements] at hget
      rcases Option.map_eq_some_iff.mp hget with ⟨atom, -, rfl⟩
      exact fits_element evaluate atom
    refine propertiesDepth_le fun law value hvalue => ?_
    refine Element.depth_le_of_mem_matchAll hfits hfound ?_ _ (hspecified law value hvalue)
    intro other hother
    rcases PropertySet.mem_effectives hvalues other hother with ⟨law, heffective⟩
    exact depth_le_of_effective heffective

theorem listDepth_le_of_mem_matchUnder {wrapper : Wrapper}
    (hhead : ∀ head properties, wrapper = .application head properties → head.depth = 0)
    {patterns subjects : Sequence Atom} (hfound : found ∈
      (Sequence.matchUnder wrapper (patterns.pattern evaluate) subjects binds).alternatives) :
    listDepth patterns.elements ≤ listDepth subjects.elements ∨
      (subjects.properties.isAssociative = true ∧ patterns.length < subjects.length) ∧
        listDepth patterns.elements ≤ listDepth subjects.elements + wrapper.levels := by
  unfold Sequence.matchUnder at hfound
  rw [Traced.alternatives_continued, List.mem_flatMap] at hfound
  rcases hfound with ⟨middle, -, hfound⟩
  have hlength : (listElements evaluate patterns.elements).length = patterns.length :=
    length_listElements evaluate _
  have hlist : ∀ {d : Nat}, (∀ e ∈ listElements evaluate patterns.elements, e.pattern.depth ≤ d) →
      listDepth patterns.elements ≤ d := by
    intro d h
    rw [listElements_eq_map, List.forall_mem_map] at h
    exact listDepth_le h
  have hsubjects : ∀ atom ∈ subjects.elements, atom.depth ≤ listDepth subjects.elements :=
    fun atom => depth_le_listDepth
  by_cases hregroups : subjects.properties.isAssociative = true ∧ patterns.length < subjects.length
  · refine Or.inr ⟨hregroups, hlist ?_⟩
    have hruns := Wrapper.has_depth_le subjects.elements hhead
    exact Sequence.depth_le_of_mem_matchElements (fits_listElements evaluate _) hfound
      hruns.forall_mem fun _ _ => hruns
  · refine Or.inl (hlist (Sequence.depth_le_of_mem_matchElements (fits_listElements evaluate _)
      hfound hsubjects fun hassociative hless => absurd ⟨hassociative, ?_⟩ hregroups))
    exact hlength ▸ hless

/-- Runs of the subject's elements may be wrapped up: pattern and subject are sequences, or they are
applications to sequences, and that of the subject is associative and has more elements.  The
number is that of the levels which wrapping adds. -/
inductive Regroups : Atom → Atom → Nat → Prop
  | sequence {patterns subjects : Sequence Atom} {mark mark' : Mark}
      (hassociative : subjects.properties.isAssociative = true)
      (hlength : patterns.length < subjects.length) :
      Regroups (sequence patterns mark) (sequence subjects mark') 1
  | application {head head' : Atom} {patterns subjects : Sequence Atom} {bound bound' : Bindings}
      {listMark listMark' mark mark' : Mark}
      (hassociative : subjects.properties.isAssociative = true)
      (hlength : patterns.length < subjects.length) :
      Regroups (application head (sequence patterns listMark) bound mark)
        (application head' (sequence subjects listMark') bound' mark') 2

theorem depth_sequence (s : Sequence Atom) (mark : Mark) :
    (sequence s mark).depth = listDepth s.elements + 1 := rfl

theorem depth_le_of_mem_applicationParts {head argument : Atom} {bound : Bindings} {mark : Mark}
    (hfound : found ∈ (applicationParts (application head argument bound mark)
      (watched head (search evaluate head)) (watched argument (search evaluate argument))
      (argumentElements evaluate argument) subject binds).alternatives) :
    (application head argument bound mark).depth ≤ subject.depth ∨
      Regroups (application head argument bound mark) subject 2 ∧
        (application head argument bound mark).depth ≤ subject.depth + 2 := by
  cases subject with
  | application head' argument' bound' mark' =>
      simp only [applicationParts, Traced.alternatives_continued, Traced.alternatives_mapFailure,
        alternatives_watched, List.mem_flatMap] at hfound
      rcases hfound with ⟨middle, hhead, hfound⟩
      have hdepth := depth_le_of_mem_search hhead
      have hargument : argument.depth ≤ argument'.depth →
          (application head argument bound mark).depth ≤
            (application head' argument' bound' mark').depth := by
        intro h
        simp only [depth]
        omega
      cases argument with
      | sequence patterns listMark =>
          cases argument' with
          | sequence subjects listMark' =>
              rcases listDepth_le_of_mem_matchUnder
                (fun _ _ => Wrapper.depth_of_applied) hfound with
                hle | ⟨⟨hassociative, hlength⟩, hle⟩
              · exact Or.inl (hargument (Nat.succ_le_succ hle))
              · have hlist := Nat.le_trans hle (Nat.add_le_add_left (Wrapper.levels_le _) _)
                refine Or.inr ⟨.application hassociative hlength, ?_⟩
                simp only [depth]
                omega
          | _ => exact Or.inl (hargument (depth_le_of_mem_search hfound))
      | _ => exact Or.inl (hargument (depth_le_of_mem_search hfound))
  | _ => cases hfound

/-- What the check skips finds nothing, unless the pattern is as much deeper as wrapping adds. -/
theorem regroups_of_mem_comparison (hdeeper : subject.depth < pattern.depth)
    (hfound : found ∈ (comparison evaluate pattern subject binds).alternatives) :
    ∃ levels, Regroups pattern subject levels ∧ pattern.depth ≤ subject.depth + levels := by
  cases pattern with
  | lambda parameter body mark =>
      rcases mem_compare hfound with ⟨middle, hfound⟩
      cases subject with
      | lambda parameter' body' mark' =>
          have hbound : ∀ atom ∈ [parameter', body'],
              atom.depth ≤ max parameter'.depth body'.depth :=
            List.forall_mem_cons.mpr ⟨Nat.le_max_left _ _,
              List.forall_mem_singleton.mpr (Nat.le_max_right _ _)⟩
          have hparts := Element.depth_le_of_mem_matchAll
            (fits_listElements evaluate [parameter, body]) hfound hbound
          rw [listElements_eq_map, List.forall_mem_map, List.forall_mem_cons,
            List.forall_mem_singleton] at hparts
          rcases hparts with ⟨hparameter, hbody⟩
          simp only [depth, element] at hdeeper hparameter hbody
          omega
      | _ => cases hfound
  | sequence patterns mark =>
      rcases mem_compare hfound with ⟨middle, hfound⟩
      cases subject with
      | sequence subjects mark' =>
          rw [depth_sequence, depth_sequence] at hdeeper ⊢
          have hnone : ∀ head properties, Wrapper.sequence subjects.properties =
              .application head properties → head.depth = 0 := by
            intro _ _ h
            cases h
          rcases listDepth_le_of_mem_matchUnder hnone hfound with
            hle | ⟨⟨hassociative, hlength⟩, hle⟩
          · omega
          · refine ⟨1, .sequence hassociative hlength, ?_⟩
            rw [Wrapper.levels] at hle
            omega
      | _ => cases hfound
  | propertySet laws mark =>
      rcases mem_compare hfound with ⟨middle, hfound⟩
      cases subject with
      | propertySet properties mark' =>
          have hle := propertiesDepth_le_of_mem_matchLaws hfound
          simp only [depth] at hdeeper
          omega
      | _ => cases hfound
  | application head argument bound mark =>
      rcases mem_compare hfound with ⟨middle, hfound⟩
      rcases depth_le_of_mem_applicationParts hfound with hle | ⟨hregroups, hle⟩
      · omega
      · exact ⟨2, hregroups, hle⟩
  | _ => cases hfound

end Atom

/-!
## The check of an engine
-/

namespace Engine

/-- A pattern that is deeper than its subject fails by its depth.  Nothing is lost by it, unless
runs of the subject's elements may be wrapped up and the pattern is no deeper than these. -/
theorem tryMatch_of_deeper (engine : Engine) {pattern subject : Atom}
    (hreaches : pattern.ReachesDepths subject) (hdeeper : subject.depth < pattern.depth)
    (binds : Bindings) :
    (engine.tryMatch pattern subject binds).value =
        .failed (.between .patternDeeper pattern subject) ∧
      ∀ found ∈ (pattern.comparison engine.evaluate subject binds).alternatives,
        ∃ levels, pattern.Regroups subject levels ∧ pattern.depth ≤ subject.depth + levels := by
  constructor
  · change (Atom.search engine.evaluate pattern subject binds).value = _
    rw [hreaches.search_eq, if_pos hdeeper]
    rfl
  · exact fun found hfound => Atom.regroups_of_mem_comparison hdeeper hfound

/-!
## What the check loses
-/

/-- A sequence in which the bracketing of the elements does not matter. -/
def bracketless (elements : List Atom) : Atom :=
  .sequence ⟨⟨some (.boolean true), none, none, none, none⟩, elements⟩ .new

def nestedPattern : Atom :=
  bracketless [.sequence ⟨.none, [.free "a" .any, .free "b" .any]⟩ .new, .free "c" .any]

def flatNumbers : Atom := bracketless [.integer 1, .integer 2, .integer 3]

/-- A well-made pattern is so many levels deeper than a well-made subject, and the check rejects it,
though the comparison would find something. -/
structure Lost (pattern subject : Atom) (levels : Nat) : Prop where
  builtPattern : pattern.Built
  builtSubject : subject.Built
  reaches : pattern.ReachesDepths subject
  depth : pattern.depth = subject.depth + levels
  found : (pattern.comparison idle.evaluate subject .empty).alternatives ≠ []

theorem lost_nestedPattern : Lost nestedPattern flatNumbers 1 where
  builtPattern := by decide
  builtSubject := by decide
  reaches := ⟨rfl, rfl, rfl, fun hconstant => absurd hconstant (by decide)⟩
  depth := by decide
  found := by decide +kernel

/-- The check rejects a pattern that the first two numbers, wrapped up, would match. -/
theorem tryMatch_of_deeper_flatNumbers :
    nestedPattern.ReachesDepths flatNumbers ∧ flatNumbers.depth < nestedPattern.depth ∧
      (idle.tryMatch nestedPattern flatNumbers .empty).value =
        .failed (.between .patternDeeper nestedPattern flatNumbers) ∧
      ∃ found ∈ (nestedPattern.comparison idle.evaluate flatNumbers .empty).alternatives,
        ∃ levels, nestedPattern.Regroups flatNumbers levels ∧
          nestedPattern.depth ≤ flatNumbers.depth + levels := by
  have hdeeper : flatNumbers.depth < nestedPattern.depth := by decide
  have h := idle.tryMatch_of_deeper lost_nestedPattern.reaches hdeeper .empty
  rcases List.exists_mem_of_ne_nil _ lost_nestedPattern.found with ⟨found, hfound⟩
  exact ⟨lost_nestedPattern.reaches, hdeeper, h.1, found, hfound, h.2 found hfound⟩

/-- What the check skips may find something, where all atoms are well made. -/
theorem not_hopeless_of_deeper :
    ¬∀ (pattern subject : Atom) (binds : Bindings), pattern.Built → subject.Built →
      pattern.ReachesDepths subject → subject.depth < pattern.depth →
        (pattern.comparison idle.evaluate subject binds).alternatives = [] := by
  intro h
  have hlost := lost_nestedPattern
  have hdeeper : flatNumbers.depth < nestedPattern.depth := by decide
  exact hlost.found (h nestedPattern flatNumbers .empty hlost.builtPattern hlost.builtSubject
    hlost.reaches hdeeper)

end Engine

end Equational
