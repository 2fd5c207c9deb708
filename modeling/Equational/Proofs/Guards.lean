import Mathlib.Logic.Relation
import Equational.Proofs.NormalTerms
import Equational.Proofs.Extension

/-!
# Guards

A match binds one name after the other, each time a name that was not bound
before, and the guard of the pattern variable then has to evaluate to `true`
under the bindings that have just been made.  A variable whose name is bound
already is only compared with its subject: its own guard is not evaluated, even
if the name was bound by the caller or by a variable with another guard.
-/

namespace Equational

open Atom Matcher

/-!
## Satisfied guards

A name that is bound is compared only; another one is bound if the guard is satisfied.
-/

def GuardEvaluator.Accepts (evaluate : GuardEvaluator) (binds : Bindings) : Option Atom → Prop
  | none => True
  | some condition => ∃ verdict, (evaluate binds condition).result = .ok verdict ∧
      verdict.bool? = some true

theorem Matcher.mem_bind_iff {evaluate : GuardEvaluator} {pattern subject : Atom} {name : String}
    {guard : Option Atom} {binds found : Bindings} :
    found ∈ (bind evaluate pattern name guard subject binds).alternatives ↔
      (∃ existing, binds.find? name = some existing ∧ (existing == subject) = true ∧
        found = binds) ∨
      binds.find? name = none ∧ found = binds.insert name subject ∧
        evaluate.Accepts found guard := by
  unfold bind
  cases hfind : binds.find? name with
  | some existing =>
      by_cases hsame : (existing == subject) = true
      · simp [hsame]
      · simp [hsame]
  | none =>
      cases guard with
      | none => simp [GuardEvaluator.Accepts]
      | some condition =>
          simp only [Traced.alternatives_andThen, Traced.ofEvaluation, reduceCtorEq, false_and,
            exists_false, false_or, true_and]
          cases hresult : (evaluate (binds.insert name subject) condition).result with
          | error failure =>
              simp only [alternatives_failBetween, List.not_mem_nil, false_iff, not_and]
              rintro rfl ⟨verdict, hverdict, -⟩
              rw [hresult] at hverdict
              cases hverdict
          | ok verdict =>
              by_cases htrue : verdict.bool? = some true
              · simp only [htrue, beq_self_eq_true, if_true, Traced.alternatives_found,
                  List.mem_singleton, iff_self_and]
                rintro rfl
                exact ⟨verdict, hresult, htrue⟩
              · have hfalse : (verdict.bool? == some true) = false := by simpa using htrue
                simp only [hfalse, Bool.false_eq_true, if_false, alternatives_failBetween,
                  List.not_mem_nil, false_iff, not_and]
                rintro rfl ⟨other, hother, hbool⟩
                rw [hresult] at hother
                cases hother
                exact htrue hbool

/-!
## Bindings that a match makes
-/

/-- One of the pattern variables is bound anew, and its guard is satisfied. -/
inductive BindsOne (evaluate : GuardEvaluator) (met : List (String × Option Atom)) :
    Bindings → Bindings → Prop
  | bind {binds : Bindings} {name : String} {guard : Option Atom} {subject : Atom}
      (hvariable : (name, guard) ∈ met) (hunbound : binds.find? name = none)
      (haccepts : evaluate.Accepts (binds.insert name subject) guard) :
      BindsOne evaluate met binds (binds.insert name subject)

section

variable {evaluate : GuardEvaluator} {met : List (String × Option Atom)}
  {binds found : Bindings}

theorem BindsOne.extends (h : BindsOne evaluate met binds found) : binds.Extends found := by
  cases h with
  | bind _ hunbound _ => exact NameMap.extends_insert hunbound _

theorem extends_of_bindsOne (h : Relation.ReflTransGen (BindsOne evaluate met) binds found) :
    binds.Extends found := by
  induction h with
  | refl => exact .refl binds
  | tail _ hstep ih => exact ih.trans hstep.extends

/-- What is bound in the end was bound from the start, or at a moment at which the guard of the
variable was satisfied. -/
theorem exists_accepts_of_bindsOne
    (h : Relation.ReflTransGen (BindsOne evaluate met) binds found) {name : String}
    {atom : Atom} (hbound : found.find? name = some atom) (hnew : binds.find? name = none) :
    ∃ middle guard, (name, guard) ∈ met ∧ binds.Extends middle ∧
      middle.find? name = none ∧ evaluate.Accepts (middle.insert name atom) guard ∧
        (middle.insert name atom).Extends found := by
  induction h with
  | refl =>
      rw [hnew] at hbound
      cases hbound
  | @tail middle found hsteps hstep ih =>
      cases hmiddle : middle.find? name with
      | some earlier =>
          rw [hstep.extends name earlier hmiddle, Option.some_inj] at hbound
          subst hbound
          rcases ih hmiddle with ⟨first, guard, hvariable, hextends, hunbound, haccepts, hlater⟩
          exact ⟨first, guard, hvariable, hextends, hunbound, haccepts,
            hlater.trans hstep.extends⟩
      | none =>
          cases hstep with
          | @bind other guard subject hvariable hunbound haccepts =>
              by_cases hname : name = other
              · subst hname
                rw [NameMap.find?_insert_self, Option.some_inj] at hbound
                subst hbound
                exact ⟨middle, guard, hvariable, extends_of_bindsOne hsteps, hunbound, haccepts,
                  .refl _⟩
              · rw [NameMap.find?_insert_of_ne _ _ hname, hmiddle] at hbound
                cases hbound

theorem closedUnderBinding_bindsOne : Search.ClosedUnderBinding evaluate
    (fun name guard => (name, guard) ∈ met) (fun _ => True)
    (Search.Keeps (Relation.ReflTransGen (BindsOne evaluate met)))
    fun alternatives => ∀ binds found, found ∈ (alternatives binds).bindings →
      Relation.ReflTransGen (BindsOne evaluate met) binds found := by
  refine Search.closedUnderBinding_keeps inherited_true (fun _ => .refl) .trans ?_
  intro pattern subject name guard hvariable _ binds found hfound
  rcases mem_bind_iff.mp hfound with ⟨existing, -, -, rfl⟩ | ⟨hunbound, rfl, haccepts⟩
  · exact .refl
  · exact .single (.bind hvariable hunbound haccepts)

end

namespace Engine

/-- Whatever a match binds, it binds at a moment at which the guard of a pattern variable of the
name is satisfied. -/
theorem accepts_of_mem_tryMatch {engine : Engine} {pattern subject : Atom} {binds found : Bindings}
    (h : found ∈ (engine.tryMatch pattern subject binds).alternatives) {name : String} {atom : Atom}
    (hbound : found.find? name = some atom) (hnew : binds.find? name = none) :
    ∃ middle guard, (name, guard) ∈ pattern.patternVariables ∧ binds.Extends middle ∧
      middle.find? name = none ∧ engine.evaluate.Accepts (middle.insert name atom) guard ∧
        (middle.insert name atom).Extends found := by
  have hclosed := @closedUnderBinding_bindsOne engine.evaluate pattern.patternVariables
  have hsearch := Atom.holds_search hclosed pattern fun _ hv => hv
  exact exists_accepts_of_bindsOne
    (Matcher.holds_watched hclosed.toClosed hsearch subject trivial binds found h) hbound hnew

/-- A variable, and the same variable as its own guard. -/
def unguardedFirst : Atom :=
  .sequence ⟨.none, [.free "x" .any, .var "x" .any (some (.free "x" .any)) 0 .new]⟩ .new

def both (value : Bool) : Atom := .sequence ⟨.none, [.boolean value, .boolean value]⟩ .new

theorem accepts_of_mem_tryMatch_both :
    ∃ found ∈ (idle.tryMatch unguardedFirst (both true) .empty).alternatives, ∃ atom,
      found.find? "x" = some atom ∧ NameMap.empty.find? "x" = (none : Option Atom) ∧
      ∃ middle guard, ("x", guard) ∈ unguardedFirst.patternVariables ∧
        NameMap.empty.Extends middle ∧ middle.find? "x" = none ∧
        idle.evaluate.Accepts (middle.insert "x" atom) guard ∧
          (middle.insert "x" atom).Extends found := by
  have hany : ((idle.tryMatch unguardedFirst (both true) .empty).alternatives.any fun found =>
      (found.find? "x").isSome) = true := by
    decide +kernel
  rcases List.any_eq_true.mp hany with ⟨found, hfound, hsome⟩
  rcases Option.isSome_iff_exists.mp hsome with ⟨atom, hatom⟩
  exact ⟨found, hfound, atom, hatom, rfl, accepts_of_mem_tryMatch hfound hatom rfl⟩

/-- The guard of the second variable is `false` under the bindings after it was matched. -/
theorem guard_bypassed :
    (both false).isConstant = true ∧
      ∃ found ∈ (idle.tryMatch unguardedFirst (both false) .empty).alternatives,
        ("x", some (.free "x" .any)) ∈ unguardedFirst.patternVariables ∧
          ¬idle.evaluate.Accepts found (some (.free "x" .any)) := by
  have hany : ((idle.tryMatch unguardedFirst (both false) .empty).alternatives.any fun found =>
      match (idle.evaluate found (.free "x" .any)).result with
      | .ok verdict => verdict.bool? == some false
      | .error _ => false) = true := by
    decide +kernel
  rcases List.any_eq_true.mp hany with ⟨found, hfound, hfalse⟩
  have hmeets : unguardedFirst.Meets (.var "x" .any (some (.free "x" .any)) 0 .new) :=
    .element (List.mem_cons_of_mem _ List.mem_cons_self) .self
  refine ⟨rfl, found, hfound, hmeets.mem_patternVariables rfl, ?_⟩
  rintro ⟨verdict, hverdict, htrue⟩
  rw [hverdict] at hfalse
  simp [htrue] at hfalse

end Engine

end Equational
