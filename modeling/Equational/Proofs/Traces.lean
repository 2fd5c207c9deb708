import Equational.Engine
import Equational.Proofs.Alternatives
import Equational.Proofs.Searches

/-!
# What can be seen of a search

An observer is told of every attempt and of the verdict on it.  A search that is
asked for its alternatives one after the other stands still between them, and
whenever it does so, the attempts that were made so far are closed: what is seen
up to there is a sequence of attempts with their verdicts, and between an attempt
and its verdict there is such a sequence again.  The first of several
alternatives is found before there is an outcome.
-/

namespace Equational

/-!
## Nested events
-/

namespace Event

def isObserved : Event → Bool
  | attempt .. | verdict .. => true
  | notice _ => false

def observed (events : List Event) : List Event := events.filter isObserved

/-- Every attempt is closed by a verdict on the same pattern and subject, and what is between the
two is nested as well. -/
inductive Nested : List Event → Prop
  | nil : Nested []
  | attempt {pattern subject : Atom} {binds : Bindings} {verdict : Verdict}
      {inner rest : List Event} (hinner : Nested inner) (hrest : Nested rest) :
      Nested (.attempt pattern subject binds :: inner ++ .verdict pattern subject verdict :: rest)

/-- What an observer records of the events is nested. -/
def Balanced (events : List Event) : Prop := Nested (observed events)

theorem Nested.append {first second : List Event} (hfirst : Nested first)
    (hsecond : Nested second) : Nested (first ++ second) := by
  induction hfirst with
  | nil => exact hsecond
  | attempt hinner _ _ ih =>
      rw [List.append_assoc, List.cons_append]
      exact .attempt hinner ih

theorem balanced_nil : Balanced [] := Nested.nil

theorem Balanced.append {first second : List Event} (hfirst : Balanced first)
    (hsecond : Balanced second) : Balanced (first ++ second) := by
  unfold Balanced observed
  rw [List.filter_append]
  exact Nested.append hfirst hsecond

theorem balanced_notices (list : List Notice) : Balanced (list.map notice) := by
  have hnone : observed (list.map notice) = [] := by
    rw [observed, List.filter_eq_nil_iff]
    rintro event hevent
    rcases List.mem_map.mp hevent with ⟨_, -, rfl⟩
    simp [isObserved]
  rw [Balanced, hnone]
  exact .nil

theorem Balanced.attempt {inner : List Event} (h : Balanced inner) (pattern subject : Atom)
    (binds : Bindings) (verdict : Verdict) :
    Balanced (.attempt pattern subject binds :: inner ++ [.verdict pattern subject verdict]) := by
  unfold Balanced observed
  rw [List.cons_append, List.filter_cons_of_pos rfl, List.filter_append, ← List.cons_append]
  exact Nested.attempt h .nil

end Event

/-!
## Streams

Each pull ends where the events are balanced.
-/

namespace Stream

/-- The events that are seen while some alternatives are asked for, one after the other. -/
def eventsOfPulls : Nat → Stream → List Event
  | 0, _ => []
  | pulls + 1, alternatives =>
    match alternatives.next? with
    | (events, none) => events
    | (events, some (_, rest)) => events ++ eventsOfPulls pulls (rest ())

/-- The events before every alternative and before the end are balanced, where `before` holds the
events since the last alternative. -/
def BalancedAfter (before : List Event) : Stream → Prop
  | .nil => Event.Balanced before
  | .cons (.event event) tail => BalancedAfter (before ++ [event]) (tail ())
  | .cons (.found _) tail => Event.Balanced before ∧ BalancedAfter [] (tail ())

/-- The events between the alternatives of a stream are balanced. -/
abbrev Balanced (alternatives : Stream) : Prop := BalancedAfter [] alternatives

theorem balanced_nil : Balanced .nil := Event.balanced_nil

theorem BalancedAfter.prepend {front before : List Event} {alternatives : Stream}
    (h : BalancedAfter before alternatives) (hfront : Event.Balanced front) :
    BalancedAfter (front ++ before) alternatives := by
  induction alternatives generalizing before with
  | nil => exact hfront.append h
  | cons head tail ih =>
      cases head with
      | event event =>
          have htail := ih () h
          rwa [← List.append_assoc] at htail
      | found binds => exact ⟨hfront.append h.1, h.2⟩

theorem BalancedAfter.append {before : List Event} {first : Stream} {second : Unit → Stream}
    (hfirst : BalancedAfter before first) (hsecond : Balanced (second ())) :
    BalancedAfter before (LazyList.append first second) := by
  induction first generalizing before with
  | nil =>
      have h := hsecond.prepend hfirst
      rwa [List.append_nil] at h
  | cons head tail ih =>
      cases head with
      | event event => exact ih () hfirst
      | found binds => exact ⟨hfirst.1, ih () hfirst.2⟩

theorem balanced_flatMap {α : Type} {f : α → Stream} {list : LazyList α}
    (hf : ∀ a ∈ list.toList, Balanced (f a)) : Balanced (list.flatMap f) := by
  induction list with
  | nil => exact balanced_nil
  | cons head tail ih =>
      have hparts := List.forall_mem_cons.mp hf
      exact hparts.1.append (ih () hparts.2)

theorem balancedAfter_events {before events : List Event} {second : Unit → Stream} :
    BalancedAfter before (LazyList.append (LazyList.ofList (events.map Step.event)) second) ↔
      BalancedAfter (before ++ events) (second ()) := by
  induction events generalizing before with
  | nil =>
      rw [List.append_nil]
      rfl
  | cons event rest ih =>
      refine Iff.trans ih ?_
      rw [List.append_assoc, List.singleton_append]

theorem BalancedAfter.noticed {before : List Event} {alternatives : Stream}
    (h : BalancedAfter before alternatives) (notice : Bindings → Notice) :
    BalancedAfter before (alternatives.noticed notice) := by
  induction alternatives generalizing before with
  | nil => exact h
  | cons head tail ih =>
      cases head with
      | event event => exact ih () h
      | found binds => exact ⟨h.1.append (Event.balanced_notices [notice binds]), ih () h.2⟩

theorem BalancedAfter.nextAfter {before : List Event} {alternatives : Stream}
    (h : BalancedAfter before.reverse alternatives) :
    Event.Balanced (nextAfter before alternatives).1 ∧
      ∀ binds rest, (Stream.nextAfter before alternatives).2 = some (binds, rest) →
        Balanced (rest ()) := by
  induction alternatives generalizing before with
  | nil => exact ⟨h, fun _ _ hnone => by cases hnone⟩
  | cons head tail ih =>
      cases head with
      | event event =>
          rw [BalancedAfter, ← List.reverse_cons] at h
          exact ih () h
      | found binds =>
          refine ⟨h.1, ?_⟩
          intro other rest hsome
          cases hsome
          exact h.2

theorem Balanced.eventsOfPulls {alternatives : Stream} (h : Balanced alternatives) (pulls : Nat) :
    Event.Balanced (alternatives.eventsOfPulls pulls) := by
  induction pulls generalizing alternatives with
  | zero => exact Event.balanced_nil
  | succ pulls ih =>
      have hnext := @BalancedAfter.nextAfter [] alternatives h
      unfold Stream.eventsOfPulls next?
      cases hresult : Stream.nextAfter [] alternatives with
      | mk events found =>
          rw [hresult] at hnext
          cases found with
          | none => exact hnext.1
          | some found => exact hnext.1.append (ih (hnext.2 found.1 found.2 rfl))

end Stream

/-!
## Outcomes

The first of several alternatives is at hand, so to ask for it shows no events; and a search that
has an outcome has failed only if it has no alternative.
-/

namespace Outcome

/-- The first of several alternatives is at hand: to ask for it shows no event. -/
def Ready : Outcome → Prop
  | several alternatives => ∃ binds rest, alternatives.next? = ([], some (binds, rest))
  | _ => True

theorem ready_cons (binds : Bindings) (tail : Unit → Stream) :
    (several (.cons (.found binds) tail)).Ready := ⟨binds, tail, rfl⟩

theorem Ready.isFailed_iff {outcome : Outcome} (h : outcome.Ready) :
    outcome.isFailed = true ↔ outcome.bindings = [] := by
  have hbindings : ∀ before (alternatives : Stream) binds rest,
      (Stream.nextAfter before alternatives).2 = some (binds, rest) →
        alternatives.bindings ≠ [] := by
    intro before alternatives
    induction alternatives generalizing before with
    | nil =>
        intro binds rest hnone
        cases hnone
    | cons head tail ih =>
        cases head with
        | event event => exact ih () (event :: before)
        | found binds => simp
  cases outcome with
  | found binds => simp [isFailed, bindings, stream]
  | failed failure => simp [isFailed, bindings, stream]
  | several alternatives =>
      rcases h with ⟨binds, rest, hnext⟩
      have hsome := hbindings [] alternatives binds rest (congrArg Prod.snd hnext)
      simpa [isFailed, bindings, stream] using hsome

end Outcome

namespace Traced

/-- What is seen before the outcome is balanced, and so is what is seen between its alternatives. -/
structure Balanced (outcome : Traced Outcome) : Prop where
  events : Event.Balanced outcome.events
  ready : outcome.value.Ready
  stream : outcome.value.stream.Balanced

theorem balanced_of_found (binds : Bindings) : Balanced (of (.found binds)) :=
  ⟨Event.balanced_nil, trivial, Event.balanced_nil, Event.balanced_nil⟩

theorem balanced_of_failed (failure : Failure) : Balanced (of (.failed failure)) :=
  ⟨Event.balanced_nil, trivial, Event.balanced_nil⟩

theorem Balanced.andThen {α : Type} {first : Traced α} {next : α → Traced Outcome}
    (hfirst : Event.Balanced first.events) (hnext : (next first.value).Balanced) :
    (first.andThen next).Balanced :=
  ⟨hfirst.append hnext.events, hnext.ready, hnext.stream⟩

theorem Balanced.all {outcome : Traced Outcome} (h : outcome.Balanced) :
    Stream.Balanced outcome.stream := by
  rw [Traced.stream, Stream.Balanced, Stream.balancedAfter_events, List.nil_append]
  have hstream := h.stream.prepend h.events
  rwa [List.append_nil] at hstream

theorem Balanced.mapFailure {outcome : Traced Outcome} (h : outcome.Balanced)
    (f : Failure → Failure) : (outcome.mapFailure f).Balanced := by
  rcases outcome with ⟨events, value⟩
  cases value with
  | found binds => exact h
  | several alternatives => exact h
  | failed failure => exact ⟨h.events, trivial, h.stream⟩

end Traced

theorem Stream.BalancedAfter.continued {before : List Event} {alternatives : Stream}
    (h : BalancedAfter before alternatives) {next : Bindings → Traced Outcome}
    (hnext : ∀ binds, (next binds).Balanced) :
    BalancedAfter before (alternatives.continued next) := by
  induction alternatives generalizing before with
  | nil => exact h
  | cons head tail ih =>
      cases head with
      | event event => exact ih () h
      | found binds =>
          have hall := (hnext binds).all.prepend h.1
          rw [List.append_nil] at hall
          exact hall.append (ih () h.2)

namespace Outcome

theorem balanced_firstAfter {before : List Event} {alternatives : Stream}
    (h : Stream.BalancedAfter before.reverse alternatives) (onEmpty : Failure) :
    (firstAfter onEmpty before alternatives).Balanced := by
  induction alternatives generalizing before with
  | nil => exact ⟨h, trivial, Event.balanced_nil⟩
  | cons head tail ih =>
      cases head with
      | event event =>
          rw [Stream.BalancedAfter, ← List.reverse_cons] at h
          exact ih () h
      | found binds => exact ⟨h.1, ready_cons binds tail, Event.balanced_nil, h.2⟩

theorem balanced_firstOf {alternatives : Stream} (h : alternatives.Balanced) (onEmpty : Failure) :
    (firstOf onEmpty alternatives).Balanced := @balanced_firstAfter [] alternatives h onEmpty

end Outcome

theorem Traced.Balanced.continued {outcome : Traced Outcome} (h : outcome.Balanced)
    {next : Bindings → Traced Outcome} (hnext : ∀ binds, (next binds).Balanced) :
    (outcome.continued next).Balanced := by
  refine .andThen h.events ?_
  unfold Outcome.andThen
  have hstream := h.stream
  cases hvalue : outcome.value with
  | found binds => exact hnext binds
  | failed failure => exact Traced.balanced_of_failed failure
  | several alternatives =>
      rw [hvalue] at hstream
      exact Outcome.balanced_firstOf (hstream.continued hnext) _

/-!
## Searches

All ways of putting searches together keep what can be seen balanced.  Of the evaluation of a
guard only notices are left, and these are not observed.
-/

def Search.Balanced (search : Search) : Prop := ∀ binds, (search binds).Balanced

namespace Matcher

open Traced

theorem balanced_watched {pattern subject : Atom} {search : Matcher}
    (h : Search.Balanced (search subject)) : Search.Balanced (watched pattern search subject) := by
  intro binds
  have hsearch := h binds
  exact ⟨hsearch.events.attempt pattern subject binds _, hsearch.ready, hsearch.stream⟩

theorem balanced_bind (evaluate : GuardEvaluator) (pattern : Atom) (name : String)
    (guard : Option Atom) (subject : Atom) :
    Search.Balanced (bind evaluate pattern name guard subject) := by
  intro binds
  unfold bind
  split
  · split
    · exact balanced_of_found binds
    · exact balanced_of_failed _
  · simp only
    split
    · exact balanced_of_found _
    · refine .andThen (Event.balanced_notices _) ?_
      split
      · exact balanced_of_failed _
      · split
        · exact balanced_of_found _
        · exact balanced_of_failed _

end Matcher

namespace Search

open Traced

theorem closed_balanced :
    Closed (fun _ => True) Balanced fun alternatives => ∀ binds, (alternatives binds).Balanced where
  inherited := inherited_true
  found := balanced_of_found
  failed failure _ := balanced_of_failed failure
  watched := Matcher.balanced_watched
  mapFailure f hsearch binds := (hsearch binds).mapFailure f
  continued hsearch hnext binds := (hsearch binds).continued hnext
  noticed notices hsearch binds := .andThen (Event.balanced_notices notices) (hsearch binds)
  firstOf onEmpty halternatives binds := Outcome.balanced_firstOf (halternatives binds) onEmpty
  all notice hsearch binds := (hsearch binds).all.noticed notice
  flatMap hf binds := Stream.balanced_flatMap fun a ha => hf a ha binds

theorem closedUnderBinding_balanced (evaluate : GuardEvaluator) :
    ClosedUnderBinding evaluate (fun _ _ => True) (fun _ => True) Balanced
      fun alternatives => ∀ binds, (alternatives binds).Balanced where
  toClosed := closed_balanced
  known _ := by
    intro binds
    beta_reduce
    split
    · split
      · exact balanced_of_found binds
      · exact balanced_of_failed _
    · exact balanced_of_found binds
  bind _ _ := Matcher.balanced_bind evaluate _ _ _ _

end Search

/-!
## The search of an engine
-/

namespace Engine

theorem balanced_search (engine : Engine) (pattern subject : Atom) :
    Search.Balanced (Atom.search engine.evaluate pattern subject) :=
  Atom.holds_search (Search.closedUnderBinding_balanced engine.evaluate) pattern
    (fun _ _ => trivial) subject trivial

theorem balanced_tryMatch (engine : Engine) (pattern subject : Atom) (binds : Bindings) :
    (engine.tryMatch pattern subject binds).Balanced :=
  Matcher.balanced_watched (engine.balanced_search pattern subject) binds

/-- The first of several alternatives is there as soon as there is an outcome.  What is seen up to
the outcome is the attempt with its verdict, and attempts with their verdicts in between; and it
remains a sequence of closed attempts after every further alternative that is asked for, up to the
end. -/
theorem tryMatch_observed (engine : Engine) (pattern subject : Atom) (binds : Bindings) :
    (engine.tryMatch pattern subject binds).value.Ready ∧
      (∃ inner, Event.Nested (Event.observed inner) ∧
        (engine.tryMatch pattern subject binds).events =
          .attempt pattern subject binds :: inner ++
            [.verdict pattern subject (engine.tryMatch pattern subject binds).value.verdict]) ∧
      ∀ pulls, Event.Nested (Event.observed ((engine.tryMatch pattern subject binds).events ++
        (engine.tryMatch pattern subject binds).value.stream.eventsOfPulls pulls)) := by
  have hbalanced := engine.balanced_tryMatch pattern subject binds
  refine ⟨hbalanced.ready, ?_, ?_⟩
  · exact ⟨_, (engine.balanced_search pattern subject binds).events, rfl⟩
  · intro pulls
    exact hbalanced.events.append (hbalanced.stream.eventsOfPulls pulls)

end Engine

end Equational
