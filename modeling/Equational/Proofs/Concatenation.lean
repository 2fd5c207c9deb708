import Equational.Proofs.Distributions
import Equational.Proofs.NormalTerms
import Equational.Proofs.Traces

/-!
# Matching in stages

A search that is continued twice is continued once, by the continuation of the
second stage: the same events are seen in the same order, the same alternatives
are found, and the failure is the same.  So lists of patterns may be cut
anywhere.  What comes behind the cut is matched under each alternative of what
stands before it.
-/

namespace Equational

/-!
## Streams

The events of a search are kept in front of what they belong to: those before a search are seen
before those of the search, and a search for a first alternative takes no step away from the
stream behind it.
-/

/-- The steps that one step of a stream becomes when every alternative is continued. -/
def Step.continued (next : Bindings → Traced Outcome) : Step → List Step
  | event e => [event e]
  | found binds => (next binds).stream.toList

namespace Stream

theorem toList_continued (alternatives : Stream) (next : Bindings → Traced Outcome) :
    (alternatives.continued next).toList = alternatives.toList.flatMap (Step.continued next) := by
  rw [continued, LazyList.toList_flatMap]
  apply List.flatMap_congr
  intro step _
  cases step with
  | event event => rfl
  | found binds => rfl

theorem toList_continued_events (events : List Event) (next : Bindings → Traced Outcome) :
    (events.map Step.event).flatMap (Step.continued next) = events.map Step.event := by
  rw [List.flatMap_map]
  exact List.map_eq_flatMap.symm

end Stream

/-- The stream of a search shows all of its events, in the order in which they take place. -/
theorem Traced.toList_stream (outcome : Traced Outcome) :
    outcome.stream.toList = outcome.events.map Step.event ++ outcome.value.stream.toList := by
  rw [stream, LazyList.toList_append, LazyList.toList_ofList]

namespace Outcome

theorem toList_stream_firstAfter (onEmpty : Failure) (before : List Event) (alternatives : Stream) :
    (firstAfter onEmpty before alternatives).stream.toList =
      before.reverse.map Step.event ++ alternatives.toList := by
  induction alternatives generalizing before with
  | nil => exact Traced.toList_stream _
  | cons head tail ih =>
      cases head with
      | found binds => exact Traced.toList_stream _
      | event event =>
          rw [firstAfter, ih, List.reverse_cons, List.map_append, List.append_assoc]
          rfl

theorem stream_firstOf (onEmpty : Failure) (alternatives : Stream) :
    (firstOf onEmpty alternatives).stream = alternatives :=
  LazyList.ext_toList (toList_stream_firstAfter onEmpty [] alternatives)

theorem firstAfter_eq (onEmpty : Failure) (before : List Event) (alternatives : Stream) :
    firstAfter onEmpty before alternatives =
      ⟨before.reverse ++ (firstOf onEmpty alternatives).events,
        (firstOf onEmpty alternatives).value⟩ := by
  rw [firstOf]
  induction alternatives generalizing before with
  | nil => simp [firstAfter]
  | cons head tail ih =>
      cases head with
      | found binds => simp [firstAfter]
      | event event =>
          rw [firstAfter, firstAfter, ih () (event :: before), ih () [event]]
          simp

end Outcome

/-!
## Searches

To continue what a search for a first alternative comes to is to search what is continued.  So a
search that is continued in two stages makes the steps, and finds what, one continued search does.
-/

namespace Traced

theorem stream_continued (outcome : Traced Outcome) (next : Bindings → Traced Outcome) :
    (outcome.continued next).stream = outcome.stream.continued next := by
  have hvalue : (outcome.value.andThen next).stream = outcome.value.stream.continued next := by
    cases outcome.value with
    | found binds =>
        apply LazyList.ext_toList
        rw [Stream.toList_continued, Outcome.stream]
        exact (List.append_nil _).symm
    | failed failure => rfl
    | several alternatives => exact Outcome.stream_firstOf _ _
  apply LazyList.ext_toList
  rw [Stream.toList_continued, toList_stream outcome, List.flatMap_append,
    Stream.toList_continued_events, ← Stream.toList_continued, ← hvalue, toList_stream,
    toList_stream]
  simp only [continued, andThen, List.map_append, List.append_assoc]

end Traced

theorem Stream.continued_continued (alternatives : Stream) (f g : Bindings → Traced Outcome) :
    (alternatives.continued f).continued g =
      alternatives.continued fun binds => (f binds).continued g := by
  apply LazyList.ext_toList
  rw [toList_continued, toList_continued, toList_continued, List.flatMap_assoc]
  apply List.flatMap_congr
  intro step _
  cases step with
  | event event => exact List.append_nil _
  | found binds =>
      rw [Step.continued, Step.continued, Traced.stream_continued, toList_continued]

theorem Outcome.firstAfter_andThen (before : List Event) (alternatives : Stream)
    (next : Bindings → Traced Outcome) :
    (firstAfter (.of .notContinued) before alternatives).andThen (·.andThen next) =
      firstAfter (.of .notContinued) before (alternatives.continued next) := by
  induction alternatives generalizing before with
  | nil =>
      rw [firstAfter, Traced.andThen]
      simp only [Outcome.andThen, Traced.of, List.append_nil]
      rfl
  | cons head tail ih =>
      cases head with
      | event event => exact ih () (event :: before)
      | found binds =>
          rw [firstAfter_eq _ _ (Stream.continued _ next)]
          rfl

/-- To continue a search in two stages is to continue it once, by both of them: not only is the same
found, but the same is seen on the way, and a failure is the same. -/
theorem Traced.continued_assoc (outcome : Traced Outcome) (f g : Bindings → Traced Outcome) :
    (outcome.continued f).continued g = outcome.continued fun binds => (f binds).continued g := by
  have hvalue : ∀ value : Outcome, (value.andThen f).andThen (·.andThen g) =
      value.andThen fun binds => (f binds).continued g := by
    intro value
    cases value with
    | found binds => rfl
    | failed failure => rfl
    | several alternatives =>
        rw [Outcome.andThen, Outcome.andThen, Outcome.firstOf, Outcome.firstAfter_andThen,
          Stream.continued_continued]
        rfl
  rw [continued, continued, andThen_assoc]
  simp only [hvalue]
  rfl

/-!
## Lists of patterns

The second part of a list is matched under what was found for the first one.  Where its positions
are counted from shows in failures only, and a list fails only if it has no alternative.
-/

namespace Element

/-- A list of elements may be cut in two: the second part is matched under each alternative of the
first, and its positions are counted on. -/
theorem matchFrom_append (index : Nat) {elements : List Element} {subjects : List Atom}
    (hlength : elements.length = subjects.length) (others : List Element) (more : List Atom)
    (binds : Bindings) :
    matchFrom index (elements ++ others) (subjects ++ more) binds =
      (matchFrom index elements subjects binds).continued
        (matchFrom (index + elements.length) others more) := by
  induction elements generalizing index subjects binds with
  | nil =>
      rw [List.length_eq_zero_iff.mp hlength.symm]
      rfl
  | cons element rest ih =>
      cases subjects with
      | nil => cases hlength
      | cons subject subjects =>
          have hrest := fun binds => ih (index + 1) (Nat.succ.inj hlength) binds
          rw [List.length_cons, Nat.add_comm rest.length, ← Nat.add_assoc]
          rw [List.cons_append, List.cons_append, matchFrom, matchFrom, Traced.continued_assoc]
          simp only [hrest]

theorem matchAll_append {elements others : List Element} {subjects more : List Atom}
    (hfirst : elements.length = subjects.length) (hsecond : others.length = more.length)
    (binds : Bindings) :
    matchAll (elements ++ others) (subjects ++ more) binds =
      (matchAll elements subjects binds).continued (matchFrom elements.length others more) := by
  have hall : (elements ++ others).length = (subjects ++ more).length := by
    rw [List.length_append, List.length_append, hfirst, hsecond]
  rw [matchAll, matchAll, if_pos hall, if_pos hfirst, matchFrom_append 0 hfirst, Nat.zero_add]

theorem alternatives_matchAll_append {elements others : List Element} {subjects more : List Atom}
    (hfirst : elements.length = subjects.length) (hsecond : others.length = more.length)
    (binds : Bindings) :
    (matchAll (elements ++ others) (subjects ++ more) binds).alternatives =
      (matchAll elements subjects binds).alternatives.flatMap fun found =>
        (matchAll others more found).alternatives := by
  rw [matchAll_append hfirst hsecond, Traced.alternatives_continued]
  apply List.flatMap_congr
  intro found _
  rw [matchAll, if_pos hsecond]
  exact alternatives_matchFrom _ 0 others more found

end Element

namespace Atom

theorem listElements_append (evaluate : GuardEvaluator) (list more : List Atom) :
    listElements evaluate (list ++ more) =
      listElements evaluate list ++ listElements evaluate more := by
  rw [listElements_eq_map, listElements_eq_map, listElements_eq_map, List.map_append]

theorem isFailed_matchAll_iff (evaluate : GuardEvaluator) (patterns subjects : List Atom)
    (binds : Bindings) :
    (Element.matchAll (listElements evaluate patterns) subjects binds).value.isFailed = true ↔
      (Element.matchAll (listElements evaluate patterns) subjects binds).alternatives = [] := by
  have hclosed := Search.closedUnderBinding_balanced evaluate
  have hbalanced : Search.Balanced (Element.matchAll (listElements evaluate patterns) subjects) :=
    Element.holds_matchAll hclosed.toClosed (holds_listElements hclosed patterns fun _ _ => trivial)
      fun _ _ => trivial
  exact (hbalanced binds).ready.isFailed_iff

end Atom

namespace Engine

/-- What is found for two lists of patterns, one behind the other, is what is found for the second
under each binding set that is found for the first, in this order.  If there is nothing of the kind,
and only then, the match fails. -/
theorem matchList_append (engine : Engine) {patterns others subjects more : List Atom}
    (hfirst : patterns.length = subjects.length) (hsecond : others.length = more.length)
    (binds : Bindings) :
    (engine.matchList (patterns ++ others) (subjects ++ more) binds).alternatives =
        (engine.matchList patterns subjects binds).alternatives.flatMap
          (fun found => (engine.matchList others more found).alternatives) ∧
      ((engine.matchList (patterns ++ others) (subjects ++ more) binds).value.isFailed = true ↔
        (engine.matchList patterns subjects binds).alternatives.flatMap
          (fun found => (engine.matchList others more found).alternatives) = []) := by
  have halternatives :
      (engine.matchList (patterns ++ others) (subjects ++ more) binds).alternatives =
      (engine.matchList patterns subjects binds).alternatives.flatMap
        fun found => (engine.matchList others more found).alternatives := by
    unfold matchList
    rw [Atom.listElements_append]
    refine Element.alternatives_matchAll_append ?_ ?_ binds
    · exact (Atom.length_listElements engine.evaluate patterns).trans hfirst
    · exact (Atom.length_listElements engine.evaluate others).trans hsecond
  refine ⟨halternatives, ?_⟩
  rw [← halternatives]
  exact Atom.isFailed_matchAll_iff engine.evaluate _ _ binds

def unordered (first second : Atom) : Atom :=
  .sequence ⟨⟨none, some (.boolean true), none, none, none⟩, [first, second]⟩ .new

def unorderedVariables : List Atom := [unordered (.free "x" .any) (.free "y" .any)]

def unorderedNumbers : List Atom := [unordered (.integer 1) (.integer 2)]

/-- Of the two ways to match the numbers, the second list of patterns leaves one. -/
theorem matchList_append_unordered :
    (idle.matchList unorderedVariables unorderedNumbers .empty).alternatives.length = 2 ∧
      (idle.matchList (unorderedVariables ++ [.free "x" .any]) (unorderedNumbers ++ [.integer 2])
          .empty).alternatives =
        (idle.matchList unorderedVariables unorderedNumbers .empty).alternatives.flatMap
          (fun found => (idle.matchList [.free "x" .any] [.integer 2] found).alternatives) ∧
      (idle.matchList (unorderedVariables ++ [.free "x" .any]) (unorderedNumbers ++ [.integer 2])
        .empty).alternatives.length = 1 := by
  refine ⟨by decide +kernel, ?_, by decide +kernel⟩
  exact (@matchList_append idle unorderedVariables [.free "x" .any] unorderedNumbers [.integer 2]
    rfl rfl .empty).1

end Engine

end Equational
