import Equational.Proofs.Concatenation
import Equational.Proofs.Handover

/-!
# Where the match of a list breaks down

A list of patterns that cannot be matched has a position up to which it cannot
be matched, while the patterns before it can.  If they match in one way, there
is one failure at this position, and it is passed on with the position.  If
they match in several ways, each of them breaks down on its own; then the
failures are dropped with the alternatives, and what is passed on says that no
alternative could be continued, and names no position.
-/

namespace Equational

open Atom

/-!
## Failures of continued searches
-/

namespace Outcome

/-- Whether there is one binding set, and no stream of alternatives. -/
def isSingle : Outcome → Bool
  | found _ => true
  | _ => false

def index : Outcome → Option Nat
  | failed failure => failure.index
  | _ => none

theorem exists_failed {outcome : Outcome} (h : outcome.isFailed = true) :
    ∃ failure, outcome = .failed failure := by
  cases outcome with
  | failed failure => exact ⟨failure, rfl⟩
  | found | several => cases h

theorem exists_failed_of_index {outcome : Outcome} {i : Nat} (h : outcome.index = some i) :
    ∃ failure, outcome = .failed failure ∧ failure.index = some i := by
  cases outcome with
  | failed failure => exact ⟨failure, rfl, h⟩
  | found | several => cases h

theorem value_firstOf_of_failed {onEmpty failure : Failure} {alternatives : Stream}
    (h : (firstOf onEmpty alternatives).value = .failed failure) : failure = onEmpty := by
  rcases firstAfter_cases onEmpty [] alternatives with ⟨-, hvalue⟩ | ⟨found, tail, -, hvalue⟩
  · rw [firstOf, hvalue] at h
    exact (Outcome.failed.inj h).symm
  · rw [firstOf, hvalue] at h
    cases h

end Outcome

namespace Traced

theorem value_continued_of_failed {outcome : Traced Outcome} {failure : Failure}
    (h : outcome.value = .failed failure) (next : Bindings → Traced Outcome) :
    (outcome.continued next).value = .failed failure := by
  rw [continued, first_value_andThen, h]
  rfl

/-- Where a continued search fails, the search itself fails, or the continuation of its only binding
set does, or there are several alternatives, none of which can be continued. -/
theorem cases_of_continued_failed {outcome : Traced Outcome} {next : Bindings → Traced Outcome}
    {failure : Failure} (h : (outcome.continued next).value = .failed failure) :
    outcome.value = .failed failure ∨
      (∃ found, outcome.value = .found found ∧ (next found).value = .failed failure) ∨
      ∃ alternatives, outcome.value = .several alternatives ∧ failure = .of .notContinued := by
  rw [continued, first_value_andThen] at h
  cases hvalue : outcome.value with
  | found found =>
      rw [hvalue] at h
      exact Or.inr (Or.inl ⟨found, rfl, h⟩)
  | failed other =>
      rw [hvalue] at h
      exact Or.inl h
  | several alternatives =>
      rw [hvalue] at h
      exact Or.inr (Or.inr ⟨alternatives, rfl, Outcome.value_firstOf_of_failed h⟩)

end Traced

/-!
## Prefixes of a list

One pattern more is matched under what the patterns before it find.  So either all prefixes match,
or the match breaks down at one position, and the list fails as its first patterns do.
-/

namespace Element

variable {elements : List Element} {subjects : List Atom} {binds : Bindings} {failure : Failure}

def matchFirst (elements : List Element) (subjects : List Atom) (binds : Bindings) (n : Nat) :
    Traced Outcome :=
  matchAll (elements.take n) (subjects.take n) binds

/-- The patterns before the position match, and those up to it do not. -/
structure BreaksAt (elements : List Element) (subjects : List Atom) (binds : Bindings)
    (i : Nat) : Prop where
  before : (matchFirst elements subjects binds i).value.isFailed = false
  through : (matchFirst elements subjects binds (i + 1)).value.isFailed = true

theorem length_take_eq (hlength : elements.length = subjects.length) (n : Nat) :
    (elements.take n).length = (subjects.take n).length := by
  rw [List.length_take, List.length_take, hlength]

theorem value_matchAll_of_failed (hlength : elements.length = subjects.length) {n : Nat}
    (h : (matchFirst elements subjects binds n).value = .failed failure) :
    (matchAll elements subjects binds).value = .failed failure := by
  have hdrop : (elements.drop n).length = (subjects.drop n).length := by
    rw [List.length_drop, List.length_drop, hlength]
  have happend := matchAll_append (length_take_eq hlength n) hdrop binds
  rw [List.take_append_drop, List.take_append_drop] at happend
  rw [happend]
  exact Traced.value_continued_of_failed h _

theorem matchFirst_succ (hlength : elements.length = subjects.length) {i : Nat} {element : Element}
    {subject : Atom} (helement : elements[i]? = some element)
    (hsubject : subjects[i]? = some subject) :
    matchFirst elements subjects binds (i + 1) =
      (matchFirst elements subjects binds i).continued (matchFrom i [element] [subject]) := by
  have hlt : i < elements.length := (List.getElem?_eq_some_iff.mp helement).1
  have hfirst : (elements.take i).length = i := List.length_take_of_le hlt.le
  rw [matchFirst, matchFirst, List.take_add_one, List.take_add_one, helement, hsubject]
  have happend : matchAll (elements.take i ++ [element]) (subjects.take i ++ [subject]) binds = _ :=
    matchAll_append (length_take_eq hlength i) rfl binds
  rwa [hfirst] at happend

/-- The match of a list that cannot be matched breaks down at a position: at the outset nothing is
left to match, and at the end not all of it can be. -/
theorem exists_breaksAt (n : Nat)
    (h : (matchFirst elements subjects binds n).value.isFailed = true) :
    ∃ i < n, BreaksAt elements subjects binds i := by
  induction n with
  | zero => cases h
  | succ n ih =>
      cases hbefore : (matchFirst elements subjects binds n).value.isFailed with
      | true =>
          rcases ih hbefore with ⟨i, hlt, hbreaks⟩
          exact ⟨i, hlt.trans (Nat.lt_succ_self n), hbreaks⟩
      | false => exact ⟨n, Nat.lt_succ_self n, hbefore, h⟩

theorem value_matchFrom_single (i : Nat) {element : Element} {subject : Atom}
    (hready : (element.matcher subject binds).value.Ready)
    (h : (matchFrom i [element] [subject] binds).value = .failed failure) :
    ∃ prior, (element.matcher subject binds).value = .failed prior ∧
      failure = ((Failure.between .elementsDiffer element.pattern subject).atIndex i).causedBy
        prior := by
  have hnone : (matchFrom i [element] [subject] binds).alternatives = [] :=
    Traced.alternatives_eq_nil_of_isFailed (by rw [h]; rfl)
  have hsearch : (element.matcher subject binds).alternatives = [] := by
    simpa [matchFrom] using hnone
  cases hvalue : (element.matcher subject binds).value with
  | failed prior =>
      refine ⟨prior, rfl, ?_⟩
      rw [matchFrom, Traced.value_continued_of_failed] at h
      · exact (Outcome.failed.inj h).symm
      · rw [Traced.mapFailure, hvalue]
        rfl
  | found found =>
      rw [Traced.alternatives, hvalue] at hsearch
      cases hsearch
  | several alternatives =>
      have hfailed := hready.isFailed_iff.mpr hsearch
      rw [hvalue] at hfailed
      cases hfailed

/-- A failure names the position at which the match of a list breaks down exactly if the elements
before it match in a single way. -/
theorem exists_index_of_failed
    (hready : ∀ element ∈ elements, ∀ subject binds, (element.matcher subject binds).value.Ready)
    (hlength : elements.length = subjects.length)
    (h : (matchAll elements subjects binds).value = .failed failure) :
    ∃ i, BreaksAt elements subjects binds i ∧
      failure.index =
        if (matchFirst elements subjects binds i).value.isSingle then some i else none := by
  have hall : (matchFirst elements subjects binds elements.length).value = .failed failure := by
    rwa [matchFirst, List.take_length, hlength, List.take_length]
  rcases exists_breaksAt elements.length (by rw [hall]; rfl) with ⟨i, hlt, hbreaks⟩
  have helement : elements[i]? = some elements[i] := List.getElem?_eq_getElem hlt
  have hbound : i < subjects.length := hlength ▸ hlt
  have hsubject : subjects[i]? = some subjects[i] := List.getElem?_eq_getElem hbound
  have hthrough : (matchFirst elements subjects binds (i + 1)).value = .failed failure := by
    rcases Outcome.exists_failed hbreaks.through with ⟨other, hother⟩
    rw [hother, ← value_matchAll_of_failed hlength hother, h]
  refine ⟨i, hbreaks, ?_⟩
  rw [matchFirst_succ hlength helement hsubject] at hthrough
  rcases Traced.cases_of_continued_failed hthrough with
    hbefore | ⟨found, hfound, hfailed⟩ | ⟨alternatives, hseveral, hlost⟩
  · have hmatched := hbreaks.before
    rw [hbefore] at hmatched
    cases hmatched
  · rcases value_matchFrom_single i (hready _ (List.mem_of_getElem? helement) _ _) hfailed with
      ⟨prior, -, hnamed⟩
    rw [hfound, hnamed]
    rfl
  · rw [hseveral, hlost]
    rfl

end Element

/-!
## Lists of patterns and formal parameters

The position is named as long as the patterns before it match in one way only: where there are
several ways, the failures of all of them are replaced by one without a position.
-/

namespace Atom

/-- If a list of patterns cannot be matched, there is a position at which its match breaks down.
The failure names this position exactly if the patterns before it match in a single way.  With this
failure an operator rejects arguments that its parameters do not match. -/
theorem index_of_failed (evaluate : GuardEvaluator) {patterns subjects : List Atom}
    {binds : Bindings}
    {failure : Failure} (hlength : patterns.length = subjects.length)
    (h : (Element.matchAll (listElements evaluate patterns) subjects binds).value =
      .failed failure) :
    (∃ i, Element.BreaksAt (listElements evaluate patterns) subjects binds i ∧
        failure.index =
          if (Element.matchFirst (listElements evaluate patterns) subjects binds i).value.isSingle
          then some i else none) ∧
      ∀ (natives : Natives) (op : Operator Atom) (argument : Atom),
        binds = .empty → op.Pairs evaluate argument patterns subjects →
        (op.applyWith natives evaluate argument).result = .error (.parameters op.name failure) := by
  constructor
  · have hclosed := Search.closedUnderBinding_balanced evaluate
    have hready : ∀ element ∈ listElements evaluate patterns, ∀ subject binds,
        (element.matcher subject binds).value.Ready := fun element helement subject binds =>
      (holds_listElements hclosed patterns (fun _ _ => trivial) element helement subject trivial
        binds).ready
    have hlengths := (length_listElements evaluate patterns).trans hlength
    exact Element.exists_index_of_failed hready hlengths h
  · rintro natives op argument rfl hpairs
    rw [hpairs.result_applyWith, Operator.dispatch]
    have hrejected : (op.bindParameters evaluate patterns subjects).result =
        .error (.parameters op.name failure) := by
      rw [Operator.bindParameters_result, h]
      rfl
    exact Evaluation.result_bind_of_error hrejected _

def equalParameters : List Atom := [.free "x" .any, .free "x" .any]

/-- The second of two different arguments is refused, at its position. -/
theorem index_of_failed_equalParameters : ∃ failure,
    (Engine.idle.matchList equalParameters [.integer 1, .integer 2] .empty).value =
      .failed failure ∧
      failure.index = some 1 ∧
      Element.BreaksAt (listElements Engine.idle.evaluate equalParameters) [.integer 1, .integer 2]
        .empty 1 ∧
      ((⟨"f", .none, equalParameters, none, none⟩ : Operator Atom).applyWith Engine.idle.natives
        Engine.idle.evaluate (.sequence (.plain [.integer 1, .integer 2]) .new)).result =
          .error (.parameters "f" failure) := by
  have hindex :
      (Engine.idle.matchList equalParameters [.integer 1, .integer 2] .empty).value.index =
      some 1 := by decide +kernel
  rcases Outcome.exists_failed_of_index hindex with ⟨failure, hfailed, hposition⟩
  have hpairs : (⟨"f", .none, equalParameters, none, none⟩ : Operator Atom).Pairs
      Engine.idle.evaluate
      (.sequence (.plain [.integer 1, .integer 2]) .new) equalParameters [.integer 1, .integer 2] :=
    .fixed rfl rfl rfl
  rcases @index_of_failed Engine.idle.evaluate equalParameters
    [.integer 1, .integer 2] .empty failure
    rfl hfailed with ⟨⟨i, hbreaks, hindex⟩, hrejected⟩
  refine ⟨failure, hfailed, hposition, ?_, hrejected _ _ _ rfl hpairs⟩
  rw [hposition] at hindex
  split at hindex
  · cases hindex
    exact hbreaks
  · cases hindex

/-- Two ways to match the first atom break down at the second, and the failure does not say so. -/
theorem index_of_failed_lost :
    (Engine.idle.matchList (Engine.unorderedVariables ++ [.integer 3])
        (Engine.unorderedNumbers ++ [.integer 4]) .empty).value.isFailed = true ∧
      (Engine.idle.matchList Engine.unorderedVariables Engine.unorderedNumbers
        .empty).value.isFailed = false ∧
      (Engine.idle.matchList (Engine.unorderedVariables ++ [.integer 3])
        (Engine.unorderedNumbers ++ [.integer 4]) .empty).value.index = none := by
  decide +kernel

end Atom

end Equational
