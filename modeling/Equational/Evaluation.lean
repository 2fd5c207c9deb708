import Equational.Failure
import Equational.Sequence.Normal

/-!
# Evaluations

Rewriting and application either give a value or fail with an error, and on
their way they leave notices.  Notices are kept also when an error ends the
evaluation.
-/

namespace Equational

/-- Something worth a record in a log. -/
inductive Notice where
  | absorberPresent (operator : String) (absorber : Atom)
  | emptyArguments (operator : String)
  | singleArgument (operator : String)
  | nativeResult (operator : String) (result : Atom)
  | constantMissing (constant : Atom) (subjects : Sequence Atom)
  | permutationMatched (order : List Nat) (found : Bindings)
  | groupingMatched (found : Bindings)
  | attempt (pattern subject : Atom) (binds : Bindings)
  | matched (pattern subject : Atom) (found : Bindings)
  | severalMatched (pattern subject : Atom)
  | rejected (pattern subject : Atom) (failure : Failure)

namespace Notice

/-- The severity of a record. -/
inductive Level where
  | debug
  | trace

def Level.text : Level → String
  | debug => "DEBUG"
  | trace => "TRACE"

/-- Applications are logged for debugging, steps of a search only when tracing. -/
def level : Notice → Level
  | absorberPresent .. | emptyArguments _ | singleArgument _ | nativeResult .. => .debug
  | _ => .trace

def message : Notice → String
  | absorberPresent operator absorber =>
    operator ++ ": absorber " ++ ticked absorber.text ++ " present"
  | emptyArguments operator => operator ++ ": empty argument list, using identity"
  | singleArgument operator => operator ++ ": single argument after normalization"
  | nativeResult operator result => operator ++ ": handler produced " ++ ticked result.text
  | constantMissing constant subjects =>
    "constant " ++ ticked constant.text ++ " not found in " ++ ticked subjects.text
  | permutationMatched order found =>
    "permutation [" ++ commaList (order.map Number.natText) ++ "] matched: " ++ found.text
  | groupingMatched found => "grouping matched: " ++ found.text
  | attempt pattern subject binds =>
    "try " ++ ticked pattern.text ++ " against " ++ ticked subject.text ++ " under " ++ binds.text
  | matched pattern subject found =>
    ticked pattern.text ++ " matched " ++ ticked subject.text ++ ": " ++ found.text
  | severalMatched pattern subject =>
    ticked pattern.text ++ " matched " ++ ticked subject.text ++ " in several ways"
  | rejected pattern subject failure =>
    ticked pattern.text ++ " rejected " ++ ticked subject.text ++ ": " ++ failure.message

end Notice

/-- A value or an error, with the notices left on the way. -/
structure Evaluation (α : Type) where
  notices : List Notice
  result : Except TermError α

namespace Evaluation

variable {α β : Type}

def value (a : α) : Evaluation α := ⟨[], .ok a⟩

def error (e : TermError) : Evaluation α := ⟨[], .error e⟩

def note (notice : Notice) : Evaluation Unit := ⟨[notice], .ok ()⟩

/-- Goes on after a value; an error ends the evaluation. -/
def andThen (first : Evaluation α) (next : α → Evaluation β) : Evaluation β :=
  match first.result with
  | .error e => ⟨first.notices, .error e⟩
  | .ok a => ⟨first.notices ++ (next a).notices, (next a).result⟩

instance : Monad Evaluation where
  pure := value
  bind := andThen

def ofExcept : Except TermError α → Evaluation α
  | .ok a => value a
  | .error e => error e

theorem value_andThen (a : α) (next : α → Evaluation β) : (value a).andThen next = next a := by
  simp [value, andThen]

theorem andThen_value (first : Evaluation α) : first.andThen value = first := by
  cases first with
  | mk notices result =>
      cases result with
      | error e => rfl
      | ok a => simp [andThen, value]

theorem andThen_assoc {γ : Type} (first : Evaluation α) (next : α → Evaluation β)
    (last : β → Evaluation γ) :
    (first.andThen next).andThen last = first.andThen fun a => (next a).andThen last := by
  unfold andThen
  cases first.result with
  | error e => rfl
  | ok a =>
      cases h : (next a).result with
      | error e => simp [h]
      | ok b => simp [h, List.append_assoc]

theorem result_andThen_eq_ok_iff (first : Evaluation α) (next : α → Evaluation β) (b : β) :
    (first.andThen next).result = .ok b ↔
      ∃ a, first.result = .ok a ∧ (next a).result = .ok b := by
  unfold andThen
  cases h : first.result with
  | error e => simp
  | ok a => simp

/-- An evaluation in steps has a value if every step has one. -/
theorem result_bind_eq_ok_iff (first : Evaluation α) (next : α → Evaluation β) (b : β) :
    (first >>= next).result = .ok b ↔
      ∃ a, first.result = .ok a ∧ (next a).result = .ok b :=
  result_andThen_eq_ok_iff first next b

theorem result_bind_of_ok {first : Evaluation α} {a : α} (h : first.result = .ok a)
    (next : α → Evaluation β) : (first >>= next).result = (next a).result := by
  change (first.andThen next).result = _
  rw [andThen, h]

theorem result_andThen_of_error {first : Evaluation α} {e : TermError}
    (h : first.result = .error e) (next : α → Evaluation β) :
    (first.andThen next).result = .error e := by
  rw [andThen, h]

theorem result_bind_of_error {first : Evaluation α} {e : TermError}
    (h : first.result = .error e) (next : α → Evaluation β) :
    (first >>= next).result = .error e :=
  result_andThen_of_error h next

@[simp] theorem result_pure (a : α) : (pure a : Evaluation α).result = .ok a := rfl

@[simp] theorem result_value (a : α) : (value a).result = .ok a := rfl

@[simp] theorem result_error (e : TermError) : (error e : Evaluation α).result = .error e := rfl

@[simp] theorem result_note (notice : Notice) : (note notice).result = .ok () := rfl

end Evaluation

end Equational
