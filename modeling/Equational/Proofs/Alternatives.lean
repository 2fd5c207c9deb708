import Mathlib.Data.List.Perm.Basic
import Mathlib.Tactic.ByContra
import Equational.Matching.Term

/-!
# Alternatives of an outcome

What a search finds, without the events on its way and without its laziness, is
a list of binding sets.  The list is empty exactly when the search fails, and
each way to put searches together does to the lists what its name says: going
on with every alternative is concatenation, and the matchers for lists of
patterns go through orders and groupings in turn.
-/

namespace Equational

/-!
## Streams
-/

namespace Stream

@[simp] theorem bindings_nil : bindings LazyList.nil = [] := rfl

@[simp] theorem bindings_cons_found (binds : Bindings) (tail : Unit → Stream) :
    bindings (.cons (.found binds) tail) = binds :: bindings (tail ()) := rfl

@[simp] theorem bindings_cons_event (event : Event) (tail : Unit → Stream) :
    bindings (.cons (.event event) tail) = bindings (tail ()) := rfl

@[simp] theorem bindings_append (first : Stream) (second : Unit → Stream) :
    bindings (LazyList.append first second) = first.bindings ++ bindings (second ()) := by
  simp [bindings, List.filterMap_append]

@[simp] theorem bindings_events (events : List Event) :
    bindings (LazyList.ofList (events.map Step.event)) = [] := by
  induction events with
  | nil => rfl
  | cons event rest ih =>
      simpa [LazyList.ofList] using ih

theorem bindings_flatMap {α : Type} (f : α → Stream) (list : LazyList α) :
    bindings (list.flatMap f) = list.toList.flatMap fun a => (f a).bindings := by
  induction list with
  | nil => rfl
  | cons head tail ih =>
      simp only [LazyList.flatMap, bindings_append, LazyList.toList_cons, List.flatMap_cons]
      rw [ih ()]

@[simp] theorem bindings_noticed (alternatives : Stream) (notice : Bindings → Notice) :
    (noticed alternatives notice).bindings = alternatives.bindings := by
  unfold noticed
  induction alternatives with
  | nil => rfl
  | cons head tail ih =>
      cases head with
      | event event =>
          simpa [LazyList.flatMap] using ih ()
      | found binds =>
          simpa [LazyList.flatMap] using ih ()

end Stream

/-!
## Outcomes

A search ends with its failure, or right at its first alternative.
-/

namespace Traced

def alternatives (outcome : Traced Outcome) : List Bindings := outcome.value.bindings

@[simp] theorem bindings_stream (outcome : Traced Outcome) :
    outcome.stream.bindings = outcome.alternatives := by
  simp [stream, alternatives, Outcome.bindings]

@[simp] theorem alternatives_found (binds : Bindings) :
    (of (Outcome.found binds)).alternatives = [binds] := rfl

@[simp] theorem alternatives_failed (failure : Failure) :
    (of (Outcome.failed failure)).alternatives = [] := rfl

/-- Only a failure has no alternatives, since a search goes on up to the first one. -/
theorem alternatives_eq_nil_of_isFailed {outcome : Traced Outcome}
    (h : outcome.value.isFailed = true) : outcome.alternatives = [] := by
  cases hvalue : outcome.value with
  | failed failure =>
      rw [alternatives, hvalue]
      rfl
  | found binds =>
      rw [hvalue] at h
      cases h
  | several alternatives =>
      rw [hvalue] at h
      cases h

end Traced

namespace Outcome

theorem alternatives_firstAfter (onEmpty : Failure) (before : List Event)
    (alternatives : Stream) :
    (firstAfter onEmpty before alternatives).alternatives = alternatives.bindings := by
  induction alternatives generalizing before with
  | nil => rfl
  | cons head tail ih =>
      cases head with
      | found binds => rfl
      | event event => exact ih () (event :: before)

@[simp] theorem alternatives_firstOf (onEmpty : Failure) (alternatives : Stream) :
    (firstOf onEmpty alternatives).alternatives = alternatives.bindings :=
  alternatives_firstAfter onEmpty [] alternatives

end Outcome

theorem Stream.bindings_continued (alternatives : Stream) (next : Bindings → Traced Outcome) :
    (alternatives.continued next).bindings =
      alternatives.bindings.flatMap fun binds => (next binds).alternatives := by
  unfold continued
  induction alternatives with
  | nil => rfl
  | cons head tail ih =>
      cases head with
      | event event =>
          simpa [LazyList.flatMap] using ih ()
      | found binds =>
          simpa [LazyList.flatMap] using ih ()

namespace Outcome

theorem alternatives_andThen (outcome : Outcome) (next : Bindings → Traced Outcome) :
    (outcome.andThen next).alternatives =
      outcome.bindings.flatMap fun binds => (next binds).alternatives := by
  cases outcome with
  | found binds =>
      simp [andThen, bindings, stream]
  | failed failure => rfl
  | several alternatives =>
      rw [andThen, alternatives_firstOf, Stream.bindings_continued]
      rfl

theorem firstAfter_cases (onEmpty : Failure) (before : List Event) (alternatives : Stream) :
    (alternatives.bindings = [] ∧
        (firstAfter onEmpty before alternatives).value = .failed onEmpty) ∨
      ∃ binds tail, alternatives.bindings.head? = some binds ∧
        (firstAfter onEmpty before alternatives).value =
          .several (.cons (.found binds) tail) := by
  induction alternatives generalizing before with
  | nil => exact Or.inl ⟨rfl, rfl⟩
  | cons head tail ih =>
      cases head with
      | found binds => exact Or.inr ⟨binds, tail, rfl, rfl⟩
      | event event => exact ih () (event :: before)

theorem first_eq_ok_iff (outcome : Outcome) (binds : Bindings) :
    outcome.first.value = .ok binds ↔ outcome.bindings.head? = some binds := by
  cases outcome with
  | found found =>
      simp [first, Traced.of, bindings, stream]
  | failed failure =>
      simp [first, Traced.of, bindings, stream]
  | several alternatives =>
      change (_ ↔ alternatives.bindings.head? = some binds)
      unfold first Traced.andThen firstOf
      rcases firstAfter_cases (.of .emptyStream) [] alternatives with
        ⟨hnil, hvalue⟩ | ⟨found, tail, hhead, hvalue⟩
      · simp [hnil, hvalue, Traced.of]
      · simp [hhead, hvalue, Traced.of]

theorem first_isOk_iff (outcome : Outcome) :
    (∃ binds, outcome.first.value = .ok binds) ↔ outcome.bindings ≠ [] := by
  simp only [first_eq_ok_iff]
  cases outcome.bindings with
  | nil => simp
  | cons binds rest => simp

end Outcome

namespace Traced

@[simp] theorem alternatives_andThen {α : Type} (first : Traced α)
    (next : α → Traced Outcome) :
    (first.andThen next).alternatives = (next first.value).alternatives := rfl

@[simp] theorem alternatives_continued (outcome : Traced Outcome)
    (next : Bindings → Traced Outcome) :
    (outcome.continued next).alternatives =
      outcome.alternatives.flatMap fun binds => (next binds).alternatives :=
  Outcome.alternatives_andThen outcome.value next

@[simp] theorem alternatives_mapFailure (outcome : Traced Outcome) (f : Failure → Failure) :
    (outcome.mapFailure f).alternatives = outcome.alternatives := by
  unfold mapFailure alternatives
  cases outcome.value <;> rfl

@[simp] theorem first_value_andThen {α : Type} (outcome : Traced Outcome)
    (next : Outcome → Traced α) :
    (outcome.andThen next).value = (next outcome.value).value := rfl

end Traced

namespace Matcher

@[simp] theorem alternatives_watched (pattern : Atom) (search : Matcher) (subject : Atom)
    (binds : Bindings) :
    (watched pattern search subject binds).alternatives =
      (search subject binds).alternatives := rfl

@[simp] theorem alternatives_failBetween (reason : Reason) (pattern subject : Atom) :
    (failBetween reason pattern subject).alternatives = [] := rfl

end Matcher

/-!
## Lists of patterns
-/

namespace Element

theorem alternatives_matchFrom (index other : Nat) (elements : List Element)
    (subjects : List Atom) (binds : Bindings) :
    (matchFrom index elements subjects binds).alternatives =
      (matchFrom other elements subjects binds).alternatives := by
  induction elements generalizing index other subjects binds with
  | nil => simp [matchFrom]
  | cons element rest ih =>
      cases subjects with
      | nil => simp [matchFrom]
      | cons subject subjects =>
          simp only [matchFrom, Traced.alternatives_continued, Traced.alternatives_mapFailure]
          exact List.flatMap_congr fun found _ => ih (index + 1) (other + 1) subjects found

@[simp] theorem alternatives_matchAll_nil (binds : Bindings) :
    (matchAll [] [] binds).alternatives = [binds] := rfl

@[simp] theorem alternatives_matchAll_cons (element : Element) (elements : List Element)
    (subject : Atom) (subjects : List Atom) (binds : Bindings) :
    (matchAll (element :: elements) (subject :: subjects) binds).alternatives =
      (element.matcher subject binds).alternatives.flatMap fun found =>
        (matchAll elements subjects found).alternatives := by
  unfold matchAll
  by_cases hlength : elements.length = subjects.length
  · have hcons : (element :: elements).length = (subject :: subjects).length := by
      simp [hlength]
    rw [if_pos hcons]
    simp only [matchFrom, Traced.alternatives_continued, Traced.alternatives_mapFailure]
    apply List.flatMap_congr
    intro found _
    rw [if_pos hlength]
    exact alternatives_matchFrom 1 0 elements subjects found
  · have hcons : ¬(element :: elements).length = (subject :: subjects).length := by
      simpa using hlength
    rw [if_neg hcons]
    simp [hlength]

theorem alternatives_matchAll_of_length_ne {elements : List Element} {subjects : List Atom}
    (hne : elements.length ≠ subjects.length) (binds : Bindings) :
    (matchAll elements subjects binds).alternatives = [] := by
  rw [matchAll, if_neg hne]
  rfl

theorem length_eq_of_mem_matchAll {elements : List Element} {subjects : List Atom}
    {binds found : Bindings} (h : found ∈ (matchAll elements subjects binds).alternatives) :
    elements.length = subjects.length := by
  by_contra hne
  rw [alternatives_matchAll_of_length_ne hne] at h
  cases h

theorem bindings_matchOrders (elements : List Element) (subjects : List Atom)
    (binds : Bindings) :
    (matchOrders elements subjects binds).bindings =
      (Permutation.ofSize subjects.length).toList.flatMap fun order =>
        (matchAll elements (arrange subjects order) binds).alternatives := by
  simp [matchOrders, Stream.bindings_flatMap]

theorem bindings_matchGroupings (wrapper : Wrapper) (elements : List Element)
    (subjects : List Atom) (binds : Bindings) :
    (matchGroupings wrapper elements subjects binds).bindings =
      (Grouping.groupings elements.length subjects).toList.flatMap fun runs =>
        (matchAll elements (runs.map wrapper.wrap) binds).alternatives := by
  simp [matchGroupings, Stream.bindings_flatMap]

end Element

end Equational
