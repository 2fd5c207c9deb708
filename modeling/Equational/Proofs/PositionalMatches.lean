import Equational.Proofs.Extension
import Equational.Proofs.RewritingTerms

/-!
# What positional matching binds

Literals and variables that take any subject are matched position by position,
and rewriting them under what was found gives the subjects back.  There is one
exception: a variable that meets itself is accepted without being bound, so a
later occurrence of the same variable may still be bound to another subject.
-/

namespace Equational

open Atom Matcher

/-- A literal, or a pattern variable that accepts everything. -/
def Atom.IsElementary (atom : Atom) : Prop := atom.isLiteral = true ∨ ∃ name, atom.IsFree name

/-!
## One position

A literal takes its equals, and binds nothing.  A variable is bound to an equal of the subject
afterwards, unless it met itself unbound.
-/

namespace Atom

variable {evaluate : GuardEvaluator} {name : String} {pattern subject : Atom}
  {binds found : Bindings}

theorem mem_search_of_isLiteral (h : pattern.isLiteral = true)
    (hfound : found ∈ (search evaluate pattern subject binds).alternatives) :
    (pattern == subject) = true ∧ found = binds := by
  cases pattern with
  | literal value type mark =>
      rw [search_literal] at hfound
      exact mem_ofLeaf hfound
  | _ => cases h

theorem mem_search_of_isFree (h : pattern.IsFree name)
    (hfound : found ∈ (search evaluate pattern subject binds).alternatives) :
    (∃ value, found.find? name = some value ∧ (value == subject) = true) ∨
      (pattern == subject) = true ∧ binds.find? name = none ∧ found = binds := by
  cases hfind : binds.find? name with
  | none =>
      rw [alternatives_search_unbound h hfind] at hfound
      split at hfound
      · rename_i hsame
        exact Or.inr ⟨hsame, rfl, List.mem_singleton.mp hfound⟩
      · rw [List.mem_singleton.mp hfound, NameMap.find?_insert_self]
        exact Or.inl ⟨subject, rfl, beq_refl subject⟩
  | some existing =>
      rw [alternatives_search_bound h hfind] at hfound
      split at hfound
      · rename_i hsame
        rw [List.mem_singleton.mp hfound]
        exact Or.inl ⟨existing, hfind, hsame⟩
      · cases hfound

theorem isFree_of_find? (h : pattern.IsElementary)
    (hfound : found ∈ (search evaluate pattern subject binds).alternatives) {value : Atom}
    (hunbound : binds.find? name = none) (hbound : found.find? name = some value) :
    pattern.IsFree name ∧ value = subject := by
  rcases h with hliteral | ⟨other, hfree⟩
  · rw [(mem_search_of_isLiteral hliteral hfound).2, hunbound] at hbound
    cases hbound
  · cases hfind : binds.find? other with
    | some existing =>
        rw [alternatives_search_bound hfree hfind] at hfound
        split at hfound
        · rw [List.mem_singleton.mp hfound, hunbound] at hbound
          cases hbound
        · cases hfound
    | none =>
        rw [alternatives_search_unbound hfree hfind] at hfound
        split at hfound
        · rw [List.mem_singleton.mp hfound, hunbound] at hbound
          cases hbound
        · rw [List.mem_singleton.mp hfound] at hbound
          by_cases hname : name = other
          · rw [hname, NameMap.find?_insert_self, Option.some_inj] at hbound
            exact ⟨hname ▸ hfree, hbound.symm⟩
          · rw [NameMap.find?_insert_of_ne _ _ hname, hunbound] at hbound
            cases hbound

end Atom

/-!
## All positions

What is bound stays bound, and a variable that was bound on the way was bound at one of the
positions.
-/

section

variable {evaluate : GuardEvaluator} {patterns subjects : List Atom} {binds found : Bindings}

theorem exists_position_of_find? (hpatterns : ∀ pattern ∈ patterns, pattern.IsElementary)
    (hfound : found ∈
      (Element.matchAll (listElements evaluate patterns) subjects binds).alternatives)
    {name : String} {value : Atom} (hunbound : binds.find? name = none)
    (hbound : found.find? name = some value) :
    ∃ (i : Nat) (pattern : Atom), patterns[i]? = some pattern ∧ pattern.IsFree name ∧
      subjects[i]? = some value := by
  induction patterns generalizing subjects binds with
  | nil =>
      have hlength := Element.length_eq_of_mem_matchAll hfound
      rw [List.length_eq_zero_iff.mp hlength.symm] at hfound
      rw [List.mem_singleton.mp hfound, hunbound] at hbound
      cases hbound
  | cons pattern rest ih =>
      cases subjects with
      | nil => cases Element.length_eq_of_mem_matchAll hfound
      | cons subject subjects =>
          rw [listElements_cons, Element.alternatives_matchAll_cons, List.mem_flatMap] at hfound
          rcases hfound with ⟨middle, hmiddle, hfound⟩
          have hparts := List.forall_mem_cons.mp hpatterns
          cases hfind : middle.find? name with
          | some existing =>
              have hextends := Element.extends_of_mem_matchAll
                (extending_listElements evaluate rest) hfound
              rw [hextends name existing hfind, Option.some_inj] at hbound
              rcases isFree_of_find? hparts.1 hmiddle hunbound hfind with ⟨hfree, hvalue⟩
              exact ⟨0, pattern, rfl, hfree, by rw [← hbound, hvalue]; rfl⟩
          | none =>
              rcases ih hparts.2 hfound hfind with ⟨i, other, hother, hfree, hvalue⟩
              exact ⟨i + 1, other, hother, hfree, hvalue⟩

/-- At every position the pattern is a literal that equals the subject, or a variable that is bound
to an equal of it, or a variable that met itself; this one is unbound in the end, or bound to the
subject of a later position. -/
theorem position_of_mem_matchAll (hpatterns : ∀ pattern ∈ patterns, pattern.IsElementary)
    (hfound : found ∈
      (Element.matchAll (listElements evaluate patterns) subjects binds).alternatives)
    {i : Nat} {pattern subject : Atom} (hpattern : patterns[i]? = some pattern)
    (hsubject : subjects[i]? = some subject) :
    (pattern.isLiteral = true ∧ (pattern == subject) = true) ∨
      ∃ name, pattern.IsFree name ∧
        ((∃ value, found.find? name = some value ∧ (value == subject) = true) ∨
          (pattern == subject) = true ∧ (found.find? name = none ∨
            ∃ (j : Nat) (other value : Atom), i < j ∧ patterns[j]? = some other ∧
              other.IsFree name ∧ subjects[j]? = some value ∧ found.find? name = some value)) := by
  induction patterns generalizing subjects binds i with
  | nil => cases hpattern
  | cons first rest ih =>
      cases subjects with
      | nil => cases hsubject
      | cons head subjects =>
          rw [listElements_cons, Element.alternatives_matchAll_cons, List.mem_flatMap] at hfound
          rcases hfound with ⟨middle, hmiddle, hfound⟩
          have hparts := List.forall_mem_cons.mp hpatterns
          cases i with
          | succ i =>
              rcases ih hparts.2 hfound hpattern hsubject with
                hliteral | ⟨name, hfree, hbound | ⟨hsame, hnone | ⟨j, other, value, hlt, hlater⟩⟩⟩
              · exact Or.inl hliteral
              · exact Or.inr ⟨name, hfree, Or.inl hbound⟩
              · exact Or.inr ⟨name, hfree, Or.inr ⟨hsame, Or.inl hnone⟩⟩
              · exact Or.inr ⟨name, hfree, Or.inr ⟨hsame, Or.inr
                  ⟨j + 1, other, value, Nat.succ_lt_succ hlt, hlater⟩⟩⟩
          | zero =>
              rw [List.getElem?_cons_zero, Option.some_inj] at hpattern hsubject
              subst hpattern hsubject
              rcases hparts.1 with hliteral | ⟨name, hfree⟩
              · exact Or.inl ⟨hliteral, (mem_search_of_isLiteral hliteral hmiddle).1⟩
              · refine Or.inr ⟨name, hfree, ?_⟩
                rcases mem_search_of_isFree hfree hmiddle with
                  ⟨value, hvalue, hsame⟩ | ⟨hsame, hunbound, rfl⟩
                · have hextends := Element.extends_of_mem_matchAll
                    (extending_listElements evaluate rest) hfound
                  exact Or.inl ⟨value, hextends name value hvalue, hsame⟩
                · refine Or.inr ⟨hsame, ?_⟩
                  cases hfind : found.find? name with
                  | none => exact Or.inl rfl
                  | some value =>
                      rcases exists_position_of_find? hparts.2 hfound hunbound hfind with
                        ⟨j, other, hother, hotherFree, hvalue⟩
                      exact Or.inr ⟨j + 1, other, value, Nat.succ_pos j, hother, hotherFree,
                        hvalue, rfl⟩

end

/-!
## Rewriting the patterns

So a variable is rewritten to an equal of its subject, or it is that subject itself.
-/

namespace Engine

variable {engine : Engine} {patterns subjects : List Atom} {found : Bindings}

/-- Elementary patterns rewrite to their subjects under what was found for them.  Only a pattern
that met itself may give another atom: the subject of a later occurrence of the variable. -/
theorem rewrite_of_mem_matchList (hpatterns : ∀ pattern ∈ patterns, pattern.IsElementary)
    (hfound : found ∈ (engine.matchList patterns subjects .empty).alternatives) :
    patterns.length = subjects.length ∧
      ∀ (i : Nat) (pattern subject : Atom), patterns[i]? = some pattern →
        subjects[i]? = some subject →
        ∃ new, (engine.rewrite found pattern).result = .ok new ∧
          ((new.value == subject) = true ∨
            (pattern == subject) = true ∧ ∃ (j : Nat) (name : String) (other value : Atom),
              i < j ∧ pattern.IsFree name ∧ patterns[j]? = some other ∧ other.IsFree name ∧
                subjects[j]? = some value ∧ new.value = value) := by
  have hlength := Element.length_eq_of_mem_matchAll hfound
  rw [length_listElements] at hlength
  refine ⟨hlength, fun i pattern subject hpattern hsubject => ?_⟩
  rcases position_of_mem_matchAll hpatterns hfound hpattern hsubject with
    ⟨hliteral, hsame⟩ | ⟨name, hfree, ⟨value, hvalue, hsame⟩ | ⟨hsame, hnone | hlater⟩⟩
  · refine ⟨⟨pattern, false⟩, ?_, Or.inl hsame⟩
    cases pattern with
    | literal value type mark => rfl
    | _ => cases hliteral
  · exact ⟨⟨value, true⟩, rewriteWith_free hfree hvalue, Or.inl hsame⟩
  · exact ⟨⟨pattern, false⟩, rewriteWith_free_unbound hfree hnone, Or.inl hsame⟩
  · rcases hlater with ⟨j, other, value, hlt, hother, hotherFree, hvalue, hfind⟩
    exact ⟨⟨value, true⟩, rewriteWith_free hfree hfind,
      Or.inr ⟨hsame, j, name, other, value, hlt, hfree, hother, hotherFree, hvalue, rfl⟩⟩

def twice : List Atom := [.free "x" .any, .free "x" .any]

def itselfAndFive : List Atom := [.free "x" .any, .integer 5]

theorem mem_matchList_twice :
    NameMap.empty.insert "x" (.integer 5) ∈
      (idle.matchList twice itselfAndFive .empty).alternatives := by
  have hfree : (Atom.free "x" .any).IsFree "x" := ⟨.any, .new, rfl, rfl⟩
  have hdiffers : (Atom.free "x" .any == Atom.integer 5) = false := by decide +kernel
  have hitself : (search idle.evaluate (.free "x" .any) (.free "x" .any) .empty).alternatives =
      [.empty] := by
    rw [alternatives_search_unbound hfree rfl, if_pos (beq_refl _)]
  have hfive : (search idle.evaluate (.free "x" .any) (.integer 5) .empty).alternatives =
      [NameMap.empty.insert "x" (.integer 5)] := by
    rw [alternatives_search_unbound hfree rfl, hdiffers]
    rfl
  rw [matchList, twice, itselfAndFive, listElements_cons, Element.alternatives_matchAll_cons,
    Matcher.alternatives_watched, hitself, List.flatMap_singleton, listElements_cons,
    Element.alternatives_matchAll_cons, Matcher.alternatives_watched, hfive,
    List.flatMap_singleton]
  exact List.mem_singleton.mpr rfl

theorem isElementary_twice : ∀ pattern ∈ twice, pattern.IsElementary := by
  intro pattern hpattern
  have hfree : pattern = .free "x" .any := by simpa [twice] using hpattern
  exact Or.inr ⟨"x", .any, .new, hfree, rfl⟩

theorem rewrite_of_mem_matchList_twice :
    (∀ pattern ∈ twice, pattern.IsElementary) ∧
      NameMap.empty.insert "x" (.integer 5) ∈
        (idle.matchList twice itselfAndFive .empty).alternatives ∧
      ∃ new, (idle.rewrite (NameMap.empty.insert "x" (.integer 5)) (.free "x" .any)).result =
        .ok new ∧ (new.value == .integer 5) = true := by
  have hpositions := rewrite_of_mem_matchList isElementary_twice mem_matchList_twice
  rcases hpositions.2 1 _ _ rfl rfl with ⟨new, hnew, hsame | ⟨hsame, -⟩⟩
  · exact ⟨isElementary_twice, mem_matchList_twice, new, hnew, hsame⟩
  · exact absurd hsame (by decide +kernel)

/-- At the position where the variable met itself, the literal stands in the end. -/
theorem rewrite_twice_not_subject :
    ∃ found ∈ (idle.matchList twice itselfAndFive .empty).alternatives,
      ∃ (pattern subject : Atom) (new : Rewritten Atom),
        twice[0]? = some pattern ∧ itselfAndFive[0]? = some subject ∧
          (idle.rewrite found pattern).result = .ok new ∧ (new.value == subject) = false :=
  ⟨_, mem_matchList_twice, .free "x" .any, .free "x" .any, ⟨.integer 5, true⟩, rfl, rfl, rfl,
    by decide +kernel⟩

end Engine

end Equational
