import Equational.Enumeration.LazyList
import Equational.Evaluation

/-!
# Outcomes of a match

A match has one binding set, a lazy stream with at least one, or a failure.  A
search also shows what it does: each attempt, the verdict on it, and notices.
A stream is therefore a lazy list of steps, most of which are events and some
of which are binding sets; what the search did before its outcome was known
stands in front of the outcome.
-/

namespace Equational

/-- What the verdict on an attempt says. -/
inductive Verdict where
  | matched (found : Bindings)
  | several
  | rejected (failure : Failure)

/-- What can be seen of a search. -/
inductive Event where
  | attempt (pattern subject : Atom) (binds : Bindings)
  | verdict (pattern subject : Atom) (verdict : Verdict)
  | notice (notice : Notice)

namespace Event

def notice? : Event → Option Notice
  | notice n => some n
  | _ => none

def notices (events : List Event) : List Notice := events.filterMap notice?

def log : Event → Notice
  | attempt pattern subject binds => .attempt pattern subject binds
  | verdict pattern subject (.matched found) => .matched pattern subject found
  | verdict pattern subject .several => .severalMatched pattern subject
  | verdict pattern subject (.rejected failure) => .rejected pattern subject failure
  | notice n => n

end Event

/-- One step of a lazy search. -/
inductive Step where
  | event (event : Event)
  | found (binds : Bindings)

namespace Step

def found? : Step → Option Bindings
  | found binds => some binds
  | event _ => none

def event? : Step → Option Event
  | event e => some e
  | found _ => none

end Step

/-- A stream of alternatives, among the events of the search for them. -/
abbrev Stream := LazyList Step

/-- The outcome of a match. -/
inductive Outcome where
  | found (binds : Bindings)
  | several (alternatives : Stream)
  | failed (failure : Failure)

/-- A value with the events that led to it. -/
structure Traced (α : Type) where
  events : List Event
  value : α

namespace Traced

variable {α β : Type}

def of (a : α) : Traced α := ⟨[], a⟩

def andThen (first : Traced α) (next : α → Traced β) : Traced β :=
  let second := next first.value
  ⟨first.events ++ second.events, second.value⟩

/-- An evaluation as a traced value: its notices become events. -/
def ofEvaluation (evaluation : Evaluation α) : Traced (Except TermError α) :=
  ⟨evaluation.notices.map .notice, evaluation.result⟩

theorem of_andThen (a : α) (next : α → Traced β) : (of a).andThen next = next a := rfl

theorem andThen_of (first : Traced α) : first.andThen of = first := by
  simp [andThen, of]

theorem andThen_assoc {γ : Type} (first : Traced α) (next : α → Traced β)
    (last : β → Traced γ) :
    (first.andThen next).andThen last = first.andThen fun a => (next a).andThen last := by
  simp [andThen, List.append_assoc]

end Traced

namespace Outcome

def verdict : Outcome → Verdict
  | found binds => .matched binds
  | several _ => .several
  | failed failure => .rejected failure

def isFailed : Outcome → Bool
  | failed _ => true
  | _ => false

def failure? : Outcome → Option Failure
  | failed failure => some failure
  | _ => none

def mapFailure (f : Failure → Failure) : Outcome → Outcome
  | failed failure => failed (f failure)
  | outcome => outcome

def stream : Outcome → Stream
  | found binds => .cons (.found binds) fun _ => .nil
  | several alternatives => alternatives
  | failed _ => .nil

/-- Searches a stream for its first alternative, and leaves the rest lazy; `before` holds the
events of the search so far, the latest first. -/
def firstAfter (onEmpty : Failure) (before : List Event) : Stream → Traced Outcome
  | .nil => ⟨before.reverse, failed onEmpty⟩
  | .cons (.found binds) tail => ⟨before.reverse, several (.cons (.found binds) tail)⟩
  | .cons (.event event) tail => firstAfter onEmpty (event :: before) (tail ())

/-- The outcome of searching a stream: its alternatives if there is one, else a failure. -/
def firstOf (onEmpty : Failure) (alternatives : Stream) : Traced Outcome :=
  firstAfter onEmpty [] alternatives

end Outcome

namespace Traced

/-- The events up to the outcome, then its alternatives. -/
def stream (outcome : Traced Outcome) : Stream :=
  (LazyList.ofList (outcome.events.map Step.event)).append fun _ => outcome.value.stream

end Traced

namespace Stream

def continued (alternatives : Stream) (next : Bindings → Traced Outcome) : Stream :=
  LazyList.flatMap
    (fun step =>
      match step with
      | .event event => .cons (.event event) fun _ => .nil
      | .found binds => (next binds).stream)
    alternatives

/-- The events up to the next alternative, after those of `before` in reverse, and the
alternative with what comes after it, which is not searched yet. -/
def nextAfter (before : List Event) : Stream → List Event × Option (Bindings × (Unit → Stream))
  | .nil => (before.reverse, none)
  | .cons (.found binds) tail => (before.reverse, some (binds, tail))
  | .cons (.event event) tail => nextAfter (event :: before) (tail ())

/-- The events up to the next alternative, and the alternative with what comes after it. -/
def next? (alternatives : Stream) : List Event × Option (Bindings × (Unit → Stream)) :=
  nextAfter [] alternatives

/-- The alternatives that a stream still has. -/
def bindings (alternatives : Stream) : List Bindings :=
  alternatives.toList.filterMap Step.found?

end Stream

namespace Outcome

/-- Continues with every binding set that was found: with one at once, with several lazily
and in order. -/
def andThen (outcome : Outcome) (next : Bindings → Traced Outcome) : Traced Outcome :=
  match outcome with
  | found binds => next binds
  | failed failure => .of (failed failure)
  | several alternatives =>
    firstOf (.of .notContinued) (Stream.continued alternatives next)

def first : Outcome → Traced (Except Failure Bindings)
  | found binds => .of (.ok binds)
  | failed failure => .of (.error failure)
  | several alternatives =>
    (firstOf (.of .emptyStream) alternatives).andThen fun outcome =>
      match outcome with
      | several (.cons (.found binds) _) => .of (.ok binds)
      | found binds => .of (.ok binds)
      | several _ => .of (.error (.of .emptyStream))
      | failed failure => .of (.error failure)

def bindings (outcome : Outcome) : List Bindings := outcome.stream.bindings

end Outcome

namespace Traced

def continued (outcome : Traced Outcome) (next : Bindings → Traced Outcome) : Traced Outcome :=
  outcome.andThen fun value => value.andThen next

def mapFailure (outcome : Traced Outcome) (f : Failure → Failure) : Traced Outcome :=
  ⟨outcome.events, outcome.value.mapFailure f⟩

end Traced

end Equational
