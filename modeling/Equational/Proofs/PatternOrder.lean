import Equational.Proofs.Additions
import Equational.Proofs.Irrelevance
import Equational.Proofs.Rediscovery
import Equational.Proofs.Substitution
import Equational.Proofs.Transparency

/-!
# The order of patterns

Patterns are matched one after the other, under the bindings so far, and a guard
is evaluated under them.  If the guards of a pattern do not mention the
variables of the others, and variables that have one name have one guard, then
what a pattern adds does not depend on the others, and two patterns can change
places.  So neither the order of a list of pairs of patterns and subjects nor
the order of commutative patterns makes a difference.
-/

namespace Equational

open Atom Matcher

/-!
## Independent patterns
-/

namespace Atom

/-- The names of the variables that a match with a pattern meets. -/
def patternNames (pattern : Atom) : List String := pattern.patternVariables.map Prod.fst

/-- The guards of a pattern mention no variable of another one, beside their own and those that are
bound from the start. -/
def GuardsAvoid (start : Bindings) (pattern other : Atom) : Prop :=
  ∀ name condition, (name, some condition) ∈ pattern.patternVariables →
    ∀ key ∈ other.patternNames, key ≠ name → start.find? key = none →
      condition.Everywhere (Unnamed key)

/-- No guard of one of the patterns mentions a variable of the other one, and variables of both that
have one name have one guard. -/
structure Independent (start : Bindings) (pattern other : Atom) : Prop where
  avoids : GuardsAvoid start pattern other
  avoided : GuardsAvoid start other pattern
  sameGuard : ∀ name guard guard', (name, guard) ∈ pattern.patternVariables →
    (name, guard') ∈ other.patternVariables → start.find? name = none →
      guard.map (bare id) = guard'.map (bare id)

theorem Independent.symm {start : Bindings} {pattern other : Atom}
    (h : Independent start pattern other) : Independent start other pattern :=
  ⟨h.avoided, h.avoids, fun name guard guard' hguard hguard' hnone =>
    (h.sameGuard name guard' guard hguard' hguard hnone).symm⟩

theorem unnamed_bare {name : String} (atom : Atom) :
    Unnamed name (bare id atom) ↔ Unnamed name atom := by
  cases atom with
  | sequence s mark => rw [bare_sequence]; rfl
  | operator op mark => rw [bare_operator]; rfl
  | _ => exact Iff.rfl

/-- A pattern is independent of patterns whose variables have certain names. -/
structure Apart (start : Bindings) (outer : String → Prop) (pattern : Atom) : Prop where
  avoids : ∀ name condition, (name, some condition) ∈ pattern.patternVariables →
    ∀ key, outer key → key ≠ name → start.find? key = none → condition.Everywhere (Unnamed key)
  alone : ∀ name condition, (name, some condition) ∈ pattern.patternVariables → outer name →
    start.find? name = none → ∀ key ∈ pattern.patternNames, key ≠ name →
      start.find? key = none → condition.Everywhere (Unnamed key)
  sameGuard : ∀ name guard guard', (name, guard) ∈ pattern.patternVariables →
    (name, guard') ∈ pattern.patternVariables → outer name → start.find? name = none →
      guard.map (bare id) = guard'.map (bare id)

theorem apart_nothing (start : Bindings) (pattern : Atom) :
    Apart start (fun _ => False) pattern where
  avoids _ _ _ _ houter := houter.elim
  alone _ _ _ houter := houter.elim
  sameGuard _ _ _ _ _ houter := houter.elim

theorem exists_guard {pattern : Atom} {name : String} (h : name ∈ pattern.patternNames) :
    ∃ guard, (name, guard) ∈ pattern.patternVariables := by
  rcases List.mem_map.mp h with ⟨⟨_, guard⟩, hmem, rfl⟩
  exact ⟨guard, hmem⟩

theorem Apart.or {start : Bindings} {outer : String → Prop} {pattern other : Atom}
    (h : Apart start outer pattern) (hother : Independent start pattern other) :
    Apart start (fun name => outer name ∨ name ∈ other.patternNames) pattern where
  avoids name condition hcondition key hkey :=
    hkey.elim (h.avoids name condition hcondition key) (hother.avoids name condition hcondition key)
  alone name condition hcondition houter hnone key hkey hne hunbound := by
    rcases houter with houter | houter
    · exact h.alone name condition hcondition houter hnone key hkey hne hunbound
    · rcases exists_guard houter with ⟨guard, hguard⟩
      have hsame := hother.sameGuard name _ _ hcondition hguard hnone
      rcases Option.map_eq_some_iff.mp hsame.symm with ⟨condition', rfl, hbare⟩
      have havoided := hother.avoided name condition' hguard key hkey hne hunbound
      rw [← everywhere_bare unnamed_bare] at havoided ⊢
      rwa [← hbare]
  sameGuard name guard guard' hguard hguard' houter hnone := by
    rcases houter with houter | houter
    · exact h.sameGuard name guard guard' hguard hguard' houter hnone
    · rcases exists_guard houter with ⟨guard'', hguard''⟩
      exact (hother.sameGuard name guard guard'' hguard hguard'' hnone).trans
        (hother.sameGuard name guard' guard'' hguard' hguard'' hnone).symm

end Atom

/-!
## Settled guards

Whether a guard is satisfied depends on the names that it mentions, so the guards of a pattern are
settled if it is independent of the others.
-/

theorem GuardEvaluator.Accepts.alike {evaluate : GuardEvaluator}
    (hevaluate : evaluate.Agree id evaluate) {binds other : Bindings} {guard guard' : Option Atom}
    (h : evaluate.Accepts binds guard) (hbinds : NameMap.Agree id binds other)
    (hguard : guard.map (bare id) = guard'.map (bare id)) : evaluate.Accepts other guard' := by
  cases guard' with
  | none => trivial
  | some condition' =>
      rcases Option.map_eq_some_iff.mp hguard with ⟨condition, rfl, hbare⟩
      rcases h with ⟨verdict, hverdict, htrue⟩
      have hresults := hevaluate hbinds (show Like id condition condition' from hbare)
      rw [hverdict] at hresults
      cases hother : (evaluate other condition').result with
      | error failure =>
          rw [hother] at hresults
          cases hresults
      | ok verdict' =>
          rw [hother] at hresults
          cases hresults with
          | ok hlike => exact ⟨verdict', hother, (Like.bool? hlike).symm.trans htrue⟩

theorem Engine.accepts_congr (engine : Engine) {binds other : Bindings} {name : String}
    {subject : Atom} {guard : Option Atom}
    (hguard : ∀ condition, guard = some condition → ∀ key, key ≠ name →
      other.find? key ≠ binds.find? key → condition.Everywhere (Unnamed key)) :
    engine.evaluate.Accepts (binds.insert name subject) guard ↔
      engine.evaluate.Accepts (other.insert name subject) guard := by
  cases guard with
  | none => exact Iff.rfl
  | some condition =>
      have heq : engine.evaluate (other.insert name subject) condition =
          engine.evaluate (binds.insert name subject) condition := by
        refine engine.evaluate_congr (NameMap.isEmpty_insert binds name subject)
          (NameMap.isEmpty_insert other name subject) fun key hne => ?_
        have hkey : key ≠ name := by
          rintro rfl
          exact hne (by rw [NameMap.find?_insert_self, NameMap.find?_insert_self])
        rw [NameMap.find?_insert_of_ne _ _ hkey, NameMap.find?_insert_of_ne _ _ hkey] at hne
        exact hguard condition rfl key hkey hne
      rw [GuardEvaluator.Accepts, GuardEvaluator.Accepts, heq]

/-- Among patterns whose variables have the outer names, a pattern has the atoms accepted that its
guards accept at the start. -/
def Atom.frame (evaluate : GuardEvaluator) (start : Bindings) (outer : String → Prop)
    (pattern : Atom) : Frame where
  start := start
  own := fun name => name ∈ pattern.patternNames
  outer := outer
  accepted := fun name subject => ∃ guard, (name, guard) ∈ pattern.patternVariables ∧
    evaluate.Accepts (start.insert name subject) guard

section

variable {engine : Engine} {start binds : Bindings} {outer : String → Prop} {pattern : Atom}
  {p : Atom → Prop}

theorem find?_start_of_ne {frame : Frame} {other : Bindings} (hbinds : frame.Reaches binds)
    (hother : frame.Reaches other) {key : String} (hne : other.find? key ≠ binds.find? key) :
    frame.start.find? key = none := by
  cases hfind : frame.start.find? key with
  | none => rfl
  | some atom =>
      exact absurd ((hother.keeps key atom hfind).trans (hbinds.keeps key atom hfind).symm) hne

theorem settles_of_apart (hnatives : engine.natives.Agree id engine.natives)
    (h : Apart start outer pattern) {name : String} {guard : Option Atom}
    (hguard : (name, guard) ∈ pattern.patternVariables) :
    (pattern.frame engine.evaluate start outer).Settles engine.evaluate p name guard where
  own := List.mem_map_of_mem hguard
  alone houter binds other subject hbinds hother hsame _ haccepts := by
    refine (engine.accepts_congr ?_).mp haccepts
    rintro condition rfl key hkey hne
    by_cases houterKey : outer key
    · exact h.avoids name condition hguard key houterKey hkey (find?_start_of_ne hbinds hother hne)
    · exact absurd (hsame key houterKey) hne
  shared houter binds subject hbinds hnone _ := by
    have hstart : start.find? name = none := by
      cases hfind : start.find? name with
      | none => rfl
      | some atom =>
          rw [hbinds.keeps name atom hfind] at hnone
          cases hnone
    have hfirst : (pattern.frame engine.evaluate start outer).Reaches start :=
      ⟨.refl start, .refl start⟩
    have hlocal : engine.evaluate.Accepts (binds.insert name subject) guard ↔
        engine.evaluate.Accepts (start.insert name subject) guard := by
      refine engine.accepts_congr ?_
      rintro condition rfl key hkey hne
      have hunbound : start.find? key = none := find?_start_of_ne hbinds hfirst hne
      have hbound : binds.contains key = true := by
        rw [NameMap.contains, Option.isSome_iff_ne_none]
        exact fun heq => hne (hunbound.trans heq.symm)
      rcases hbinds.gains key hbound with hcontains | hown | houterKey
      · have hsome : (start.find? key).isSome = true := hcontains
        rw [hunbound] at hsome
        cases hsome
      · exact h.alone name condition hguard houter hstart key hown hkey hunbound
      · exact h.avoids name condition hguard key houterKey hkey hunbound
    rw [hlocal]
    constructor
    · exact fun haccepts => ⟨guard, hguard, haccepts⟩
    · rintro ⟨guard', hguard', haccepts⟩
      exact haccepts.alike (Engine.agree_evaluate hnatives rfl) rfl
        (h.sameGuard name guard' guard hguard' hguard houter hstart)

end

/-!
## Two patterns in either order

Among independent patterns a pattern adds parts to the bindings, and parts can be added in either
order.  What is found in the two orders agrees, as equal atoms are alike among what the patterns
may take.
-/

/-- A condition that covers what patterns may take of their subjects.  It holds of no pattern
variable, and the atoms that it covers and those of the patterns are told apart by their
fingerprints. -/
structure Atom.Covers (p : Atom → Prop) (patterns : List Atom) : Prop where
  inherited : Inherited p
  notFree {atom : Atom} : p atom → atom.isFreeVar = false
  alike {a b : Atom} :
    p a ∨ a ∈ patterns ∨ (∃ pattern ∈ patterns, pattern.Meets a) →
      p b ∨ b ∈ patterns ∨ (∃ pattern ∈ patterns, pattern.Meets b) →
        a.fingerprint = b.fingerprint → Alike a b

section

variable {evaluate : GuardEvaluator} {p : Atom → Prop} {patterns : List Atom}

theorem Atom.Covers.beq_eq_false (h : Covers p patterns) {pattern v subject : Atom}
    (hpattern : pattern ∈ patterns) (hv : pattern.Meets v) (hsubject : p subject) :
    (v == subject) = false := by
  by_contra hne
  have hfingerprint := ((beq_iff _ _).mp (Bool.of_not_eq_false hne)).2
  have halike := h.alike (Or.inr (Or.inr ⟨pattern, hpattern, hv⟩)) (Or.inl hsubject) hfingerprint
  rcases hv.exists_var with ⟨name, type, guard, mark, rfl⟩
  rcases halike.var with ⟨type', guard', mark', rfl, -⟩
  cases h.notFree hsubject

theorem Atom.ascending_of_mem_search {pattern subject : Atom} {binds found : Bindings}
    (hbinds : binds.Ascending)
    (hfound : found ∈ (search evaluate pattern subject binds).alternatives) :
    found.Ascending := by
  have hinvariant : Invariant (fun _ => True) (fun _ => True)
      fun binds found => binds.Ascending → found.Ascending :=
    { inherited := inherited_true
      refl := fun _ h => h
      trans := fun hfirst hsecond h => hsecond (hfirst h)
      insert := fun _ _ _ h => h.insert _ _ }
  exact keeps_search evaluate hinvariant (fun _ _ => trivial) subject trivial binds found hfound
    hbinds

theorem Frame.Matches.agree {found other : Bindings} (h : Frame.Matches p found other)
    (hcovers : Covers p patterns) (hfound : found.Ascending) (hother : other.Ascending) :
    NameMap.Agree id found other := by
  refine NameMap.agree_of_find? hfound hother fun name => ?_
  rcases h name with hsame | ⟨a, b, ha, hb, hequal, hfind, hfind'⟩
  · rw [hsame]
  · have halike : Alike a b :=
      hcovers.alike (Or.inl ha) (Or.inl hb) ((beq_iff _ _).mp hequal).2
    rw [hfind, hfind', Option.map_some, Option.map_some, halike]

end

/-- Bindings that patterns whose variables have the outer names lead to. -/
structure NameMap.Reached (start : Bindings) (outer : String → Prop) (binds : Bindings) : Prop where
  keeps : start.Extends binds
  gains : start.Gains outer binds
  ascending : binds.Ascending

section

variable {engine : Engine} {start binds : Bindings} {outer : String → Prop} {p : Atom → Prop}
  {patterns : List Atom} {pattern other subject value : Atom}

theorem NameMap.Reached.frame (h : start.Reached outer binds) (evaluate : GuardEvaluator)
    (pattern : Atom) {names : String → Prop} (hnames : ∀ name, outer name → names name) :
    (pattern.frame evaluate start names).Reaches binds where
  keeps := h.keeps
  gains name hname := (h.gains name hname).imp_right fun houter => Or.inr (hnames name houter)

theorem NameMap.Reached.search (h : start.Reached outer binds) {found : Bindings}
    (hfound : found ∈ (search engine.evaluate pattern subject binds).alternatives) :
    start.Reached (fun name => outer name ∨ name ∈ pattern.patternNames) found := by
  have hkeeps := keeps_search engine.evaluate
    (invariant_gains fun name => name ∈ pattern.patternNames)
    (fun v hv => List.mem_map_of_mem hv) subject trivial binds found hfound
  refine ⟨h.keeps.trans hkeeps.1, fun name hname => ?_, ascending_of_mem_search h.ascending hfound⟩
  rcases hkeeps.2 name hname with hbound | hown
  · exact (h.gains name hbound).imp_right Or.inl
  · exact Or.inr (Or.inr hown)

theorem Atom.describes_of_apart (hnatives : engine.natives.Agree id engine.natives)
    (hcovers : Covers p patterns) (hpattern : pattern ∈ patterns) (hsubject : p subject)
    (hapart : Apart start outer pattern) :
    (pattern.frame engine.evaluate start outer).Describes p
      (search engine.evaluate pattern subject) :=
  Frame.describes_search hcovers.inherited pattern
    (fun _ _ hguard => settles_of_apart hnatives hapart hguard)
    (fun _ hv _ hsubject => hcovers.beq_eq_false hpattern hv hsubject) subject hsubject

theorem Atom.exists_agree_of_independent (hnatives : engine.natives.Agree id engine.natives)
    (hcovers : Covers p patterns) (hpattern : pattern ∈ patterns) (hother : other ∈ patterns)
    (hsubject : p subject) (hvalue : p value) (hapart : Apart start outer pattern)
    (hapart' : Apart start outer other) (hindependent : Independent start pattern other)
    (hbinds : start.Reached outer binds) {middle found : Bindings}
    (hmiddle : middle ∈ (search engine.evaluate pattern subject binds).alternatives)
    (hfound : found ∈ (search engine.evaluate other value middle).alternatives) :
    ∃ middle' ∈ (search engine.evaluate other value binds).alternatives,
      ∃ found' ∈ (search engine.evaluate pattern subject middle').alternatives,
        NameMap.Agree id found found' := by
  rcases describes_of_apart hnatives hcovers hpattern hsubject (hapart.or hindependent) with
    ⟨parts, hadds⟩
  rcases describes_of_apart hnatives hcovers hother hvalue (hapart'.or hindependent.symm) with
    ⟨others, hadds'⟩
  have hcommon : ∀ name a b, name ∈ pattern.patternNames → name ∈ other.patternNames →
      binds.find? name = none → p a → p b → (a == b) = true →
        (∃ guard, (name, guard) ∈ pattern.patternVariables ∧
          engine.evaluate.Accepts (start.insert name a) guard) →
        ∃ guard, (name, guard) ∈ other.patternVariables ∧
          engine.evaluate.Accepts (start.insert name b) guard := by
    rintro name a b - hname hnone ha hb hequal ⟨guard, hguard, haccepts⟩
    rcases exists_guard hname with ⟨guard', hguard'⟩
    have hstart : start.find? name = none := by
      cases hfind : start.find? name with
      | none => rfl
      | some atom =>
          rw [hbinds.keeps name atom hfind] at hnone
          cases hnone
    have halike : Alike a b :=
      hcovers.alike (Or.inl ha) (Or.inl hb) ((beq_iff _ _).mp hequal).2
    exact ⟨guard', hguard', haccepts.alike (Engine.agree_evaluate hnatives rfl)
      (NameMap.Agree.insert rfl name halike)
      (hindependent.sameGuard name guard guard' hguard hguard' hstart)⟩
  rcases Frame.exists_swapped hadds hadds' (fun _ => Or.inr) (fun _ => Or.inr) hcommon
    (hbinds.frame _ pattern fun _ => Or.inl) (hbinds.frame _ other fun _ => Or.inl) hmiddle hfound
    with ⟨middle', hmiddle', found', hfound', hmatches⟩
  exact ⟨middle', hmiddle', found', hfound', hmatches.agree hcovers
    ((hbinds.search hmiddle).search hfound).ascending
    ((hbinds.search hmiddle').search hfound').ascending⟩

/-!
## Lists of pairs

The order of the pairs makes no difference, by exchanging neighbours.
-/

/-- What is found where the patterns of pairs are matched against their subjects, pair by pair. -/
def Atom.pairFindings (evaluate : GuardEvaluator) (pairs : List (Atom × Atom)) (binds : Bindings) :
    List Bindings :=
  (Element.matchAll (listElements evaluate (pairs.map Prod.fst)) (pairs.map Prod.snd)
    binds).alternatives

theorem Atom.pairFindings_cons (evaluate : GuardEvaluator) (pair : Atom × Atom)
    (pairs : List (Atom × Atom)) (binds : Bindings) :
    pairFindings evaluate (pair :: pairs) binds =
      (search evaluate pair.1 pair.2 binds).alternatives.flatMap (pairFindings evaluate pairs) := by
  unfold pairFindings
  rw [List.map_cons, List.map_cons, listElements_cons, Element.alternatives_matchAll_cons,
    Matcher.alternatives_watched]

theorem Atom.exists_pairFindings_of_agree (hnatives : engine.natives.Agree id engine.natives)
    {pairs : List (Atom × Atom)} {binds' found : Bindings} (hbinds : NameMap.Agree id binds binds')
    (hfound : found ∈ pairFindings engine.evaluate pairs binds) :
    ∃ found' ∈ pairFindings engine.evaluate pairs binds', NameMap.Agree id found found' :=
  exists_of_mem_forall₂ (Element.findings_matchAll
    (agree_listElements (Engine.agree_evaluate hnatives rfl) _
      (List.forall₂_same.mpr fun atom _ => Like.refl atom))
    (List.forall₂_same.mpr fun atom _ => Like.refl atom) hbinds) hfound

/-- The order of the pairs makes no difference if their patterns are independent.  By induction on
the permutation, with the names of the patterns so far. -/
theorem Atom.exists_pairFindings_of_perm (hnatives : engine.natives.Agree id engine.natives)
    (hcovers : Covers p patterns) {pairs others : List (Atom × Atom)} (hperm : pairs.Perm others)
    (hpairs : ∀ pair ∈ pairs, pair.1 ∈ patterns ∧ p pair.2)
    (hindependent : pairs.Pairwise fun pair other => Independent start pair.1 other.1)
    (hapart : ∀ pair ∈ pairs, Apart start outer pair.1) (hbinds : start.Reached outer binds)
    {found : Bindings} (hfound : found ∈ pairFindings engine.evaluate pairs binds) :
    ∃ found' ∈ pairFindings engine.evaluate others binds, NameMap.Agree id found found' := by
  induction hperm generalizing outer binds found with
  | nil => exact ⟨found, hfound, rfl⟩
  | @cons pair pairs others _ ih =>
      rw [pairFindings_cons, List.mem_flatMap] at hfound
      rcases hfound with ⟨middle, hmiddle, hfound⟩
      have hfirst := List.pairwise_cons.mp hindependent
      have hrest : ∀ next ∈ pairs,
          Apart start (fun name => outer name ∨ name ∈ pair.1.patternNames) next.1 :=
        fun next hnext => (hapart next (List.mem_cons_of_mem _ hnext)).or (hfirst.1 next hnext).symm
      rcases ih (fun next hnext => hpairs next (List.mem_cons_of_mem _ hnext)) hfirst.2 hrest
        (hbinds.search hmiddle) hfound with ⟨found', hfound', hagree⟩
      refine ⟨found', ?_, hagree⟩
      rw [pairFindings_cons, List.mem_flatMap]
      exact ⟨middle, hmiddle, hfound'⟩
  | swap second first pairs =>
      rw [pairFindings_cons, List.mem_flatMap] at hfound
      rcases hfound with ⟨middle, hmiddle, hfound⟩
      rw [pairFindings_cons, List.mem_flatMap] at hfound
      rcases hfound with ⟨last, hlast, hfound⟩
      have hmemFirst : first ∈ first :: second :: pairs := List.mem_cons_self
      have hmemSecond : second ∈ first :: second :: pairs :=
        List.mem_cons_of_mem _ List.mem_cons_self
      have hboth := (List.pairwise_cons.mp hindependent).1 second List.mem_cons_self
      rcases exists_agree_of_independent hnatives hcovers (hpairs first hmemFirst).1
        (hpairs second hmemSecond).1 (hpairs first hmemFirst).2 (hpairs second hmemSecond).2
        (hapart first hmemFirst) (hapart second hmemSecond) hboth hbinds hmiddle hlast with
        ⟨middle', hmiddle', last', hlast', hagree⟩
      rcases exists_pairFindings_of_agree hnatives hagree hfound with ⟨found', hfound', hagree'⟩
      refine ⟨found', ?_, hagree'⟩
      rw [pairFindings_cons, List.mem_flatMap]
      refine ⟨middle', hmiddle', ?_⟩
      rw [pairFindings_cons, List.mem_flatMap]
      exact ⟨last', hlast', hfound'⟩
  | trans hfirst _ ih ih' =>
      rcases ih hpairs hindependent hapart hbinds hfound with ⟨middle, hmiddle, hagree⟩
      rcases ih' (fun pair hpair => hpairs pair (hfirst.mem_iff.mpr hpair))
        (hindependent.perm hfirst fun h => h.symm)
        (fun pair hpair => hapart pair (hfirst.mem_iff.mpr hpair)) hbinds hmiddle with
        ⟨found', hfound', hagree'⟩
      exact ⟨found', hfound', hagree.trans hagree'⟩

end

/-!
## What elimination leaves

Elimination takes the same elements from two orders of a list, and leaves the same ones.  So
another order of the patterns finds the same for an order of the subjects, and all orders of these
are searched.
-/

namespace Elimination

theorem paired_of_perm {other another : List Atom} (h : other.Perm another) (list : List Atom) :
    paired other list = paired another list := by
  have hfrom : ∀ before, pairedFrom other before list = pairedFrom another before list := by
    induction list with
    | nil => exact fun _ => rfl
    | cons atom rest ih =>
        intro before
        rw [pairedFrom, pairedFrom, ih, h.countP_eq]
  exact hfrom []

theorem skip_sublist {α : Type} (flags : List Bool) (list : List α) :
    (skip flags list).Sublist list := by
  induction list generalizing flags with
  | nil =>
      cases flags with
      | nil => exact List.Sublist.refl _
      | cons flag flags => cases flag <;> exact List.Sublist.refl _
  | cons a rest ih =>
      cases flags with
      | nil => exact List.nil_sublist _
      | cons flag flags =>
          cases flag with
          | true => exact (ih flags).cons a
          | false => exact (ih flags).cons_cons a

variable {p : Atom → Prop} {patterns others subjects : List Atom}

theorem faithful_of_covers (h : Covers p patterns) (hothers : ∀ other ∈ others, other ∈ patterns)
    (hsubjects : ∀ subject ∈ subjects, p subject) : Faithful others subjects := by
  intro other hother subject hsubject _ _ hfingerprint
  have halike : Alike subject other :=
    h.alike (Or.inl (hsubjects subject hsubject)) (Or.inr (Or.inl (hothers other hother)))
      hfingerprint.symm
  exact halike.beq

section

variable {f : Option String → Option String} {list moved : List Atom} (other : List Atom)

theorem perm_pick_of_perm
    (hlike : ∀ a ∈ list, ∀ b ∈ list, a.fingerprint = b.fingerprint → Like f a b)
    (hperm : list.Perm moved) :
    ((pick (paired other list) list).map (bare f)).Perm
      ((pick (paired other moved) moved).map (bare f)) := by
  have hfingerprints : ((pick (paired other list) list).map Atom.fingerprint).Perm
      ((pick (paired other moved) moved).map Atom.fingerprint) := by
    rw [List.perm_iff_count]
    intro digest
    have hlist := count_pairedFrom digest other [] list
    have hmoved := count_pairedFrom digest other [] moved
    simp only [List.countP_nil, Nat.zero_min, Nat.zero_add, List.nil_append] at hlist hmoved
    rw [paired, paired, hlist, hmoved, hperm.countP_eq]
  have hsame : List.Forall₂ (fun digest atom => digest = Atom.fingerprint atom)
      ((pick (paired other moved) moved).map Atom.fingerprint)
      (pick (paired other moved) moved) := by
    rw [List.forall₂_map_left_iff]
    exact List.forall₂_same.mpr fun _ _ => rfl
  rcases List.perm_comp_forall₂ hfingerprints hsame with ⟨order, horder, hpicked⟩
  rw [List.forall₂_map_left_iff, List.forall₂_iff_zip] at horder
  have halike : List.Forall₂ (Like f) (pick (paired other list) list) order := by
    rw [List.forall₂_iff_zip]
    refine ⟨horder.1, fun {a b} hmem => ?_⟩
    have ha := mem_of_mem_pick (List.of_mem_zip hmem).1
    have hb := mem_of_mem_pick (hpicked.subset (List.of_mem_zip hmem).2)
    exact hlike a ha b (hperm.mem_iff.mpr hb) (horder.2 hmem)
  rw [forall₂_like_iff.mp halike]
  exact hpicked.map _

theorem perm_skip_of_perm
    (hlike : ∀ a ∈ list, ∀ b ∈ list, a.fingerprint = b.fingerprint → Like f a b)
    (hperm : list.Perm moved) :
    ((skip (paired other list) list).map (bare f)).Perm
      ((skip (paired other moved) moved).map (bare f)) := by
  have hlist := (@pick_append_skip_perm _ (paired other list) list (by simp)).map (bare f)
  have hmoved := (@pick_append_skip_perm _ (paired other moved) moved (by simp)).map (bare f)
  rw [List.map_append] at hlist hmoved
  have hboth := (hlist.trans (hperm.map (bare f))).trans hmoved.symm
  exact (List.perm_append_left_iff _).mp
    (hboth.trans ((perm_pick_of_perm other hlike hperm).symm.append_right _))

end

theorem GoesOn.of_perm {evaluate : GuardEvaluator}
    (hperm : ((skip (paired subjects patterns) patterns).map (bare id)).Perm
      ((skip (paired subjects others) others).map (bare id)))
    (h : GoesOn (listElements evaluate patterns) subjects) :
    GoesOn (listElements evaluate others) subjects := by
  have hleft : ∀ list, GoesOn (listElements evaluate list) subjects ↔
      ∀ pattern ∈ skip (paired subjects list) list,
        pattern.isConstant = true → pattern.isStructured = true := fun list =>
    @goesOn_iff evaluate list ⟨.none, subjects⟩
  rw [hleft] at h ⊢
  intro other hother hconstant
  rcases List.mem_map.mp (hperm.mem_iff.mpr (List.mem_map_of_mem hother)) with
    ⟨pattern, hpattern, hbare⟩
  have halike : Alike pattern other := hbare
  rw [← halike.isConstant] at hconstant
  rw [← halike.isStructured]
  exact h pattern hpattern hconstant

end Elimination

theorem Atom.Covers.perm {p : Atom → Prop} {patterns others : List Atom} (h : Covers p patterns)
    (hperm : patterns.Perm others) : Covers p others where
  inherited := h.inherited
  notFree := h.notFree
  alike ha hb := by
    simp only [← hperm.mem_iff] at ha hb
    exact h.alike ha hb

theorem exists_pairs_of_perm {α β : Type} {pairs : List (α × β)} {order : List α}
    (h : order.Perm (pairs.map Prod.fst)) :
    ∃ others : List (α × β), others.Perm pairs ∧ others.map Prod.fst = order := by
  have hpairs : List.Forall₂ (fun a pair => a = pair.1) (pairs.map Prod.fst) pairs := by
    rw [List.forall₂_map_left_iff]
    exact List.forall₂_same.mpr fun _ _ => rfl
  rcases List.perm_comp_forall₂ h hpairs with ⟨others, hothers, hperm⟩
  refine ⟨others, hperm, Eq.symm ?_⟩
  rw [← List.forall₂_eq_eq_eq, List.forall₂_map_right_iff]
  exact hothers

section

variable {engine : Engine} {p : Atom → Prop} {patterns others : List Atom} {binds found : Bindings}

theorem Atom.exists_pairFindings (hnatives : engine.natives.Agree id engine.natives)
    (hcovers : Covers p patterns) (hbinds : binds.Ascending) {pairs moved : List (Atom × Atom)}
    (hperm : pairs.Perm moved) (hpairs : ∀ pair ∈ pairs, pair.1 ∈ patterns ∧ p pair.2)
    (hindependent : (pairs.map Prod.fst).Pairwise (Independent binds))
    (hfound : found ∈ pairFindings engine.evaluate pairs binds) :
    ∃ found' ∈ pairFindings engine.evaluate moved binds, NameMap.Agree id found found' :=
  exists_pairFindings_of_perm hnatives hcovers hperm hpairs (List.pairwise_map.mp hindependent)
    (fun _ _ => apart_nothing binds _) ⟨.refl binds, .refl binds, hbinds⟩ hfound

theorem Atom.exists_order_of_perm (hnatives : engine.natives.Agree id engine.natives)
    (hcovers : Covers p patterns) (hbinds : binds.Ascending) {list moved order : List Atom}
    (hlist : ∀ pattern ∈ list, pattern ∈ patterns) (horder : ∀ subject ∈ order, p subject)
    (hindependent : list.Pairwise (Independent binds))
    (hperm : (list.map (Atom.bare id)).Perm (moved.map (Atom.bare id)))
    (hfound : found ∈
      (Element.matchAll (listElements engine.evaluate list) order binds).alternatives) :
    ∃ order' : List Atom, order'.Perm order ∧
      ∃ found' ∈ (Element.matchAll (listElements engine.evaluate moved) order' binds).alternatives,
        NameMap.Agree id found found' := by
  have hlength := Element.length_eq_of_mem_matchAll hfound
  rw [length_listElements] at hlength
  obtain ⟨pairs, rfl, rfl⟩ : ∃ pairs : List (Atom × Atom),
      pairs.map Prod.fst = list ∧ pairs.map Prod.snd = order :=
    ⟨_, List.map_fst_zip (Nat.le_of_eq hlength), List.map_snd_zip (Nat.le_of_eq hlength.symm)⟩
  have hpairs : ∀ pair ∈ pairs, pair.1 ∈ patterns ∧ p pair.2 := fun pair hpair =>
    ⟨hlist _ (List.mem_map_of_mem hpair), horder _ (List.mem_map_of_mem hpair)⟩
  rcases exists_order_of_bare hperm with ⟨left, hleft, hlike⟩
  rcases exists_pairs_of_perm hleft with ⟨others, hothers, rfl⟩
  rcases exists_pairFindings hnatives hcovers hbinds hothers.symm hpairs hindependent hfound with
    ⟨middle, hmiddle, hagree⟩
  rcases exists_of_mem_forall₂ (Element.findings_matchAll
    (agree_listElements (Engine.agree_evaluate hnatives rfl) _ hlike)
    (List.forall₂_same.mpr fun atom _ => Like.refl atom) rfl) hmiddle with
    ⟨found', hfound', hagree'⟩
  exact ⟨_, hothers.map Prod.snd, found', hfound', hagree.trans hagree'⟩

theorem Sequence.exists_matchCommutative_of_perm
    (hnatives : engine.natives.Agree id engine.natives) (hcovers : Covers p patterns)
    (hbinds : binds.Ascending) (hindependent : patterns.Pairwise (Independent binds))
    (hperm : patterns.Perm others) {subjects : Sequence Atom}
    (hsubjects : ∀ subject ∈ subjects.elements, p subject)
    (hfound : found ∈ (matchCommutative (listElements engine.evaluate patterns) subjects
      binds).alternatives) :
    ∃ found' ∈ (matchCommutative (listElements engine.evaluate others) subjects
      binds).alternatives, NameMap.Agree id found found' := by
  have hfaithful : ∀ list : List Atom, (∀ pattern ∈ list, pattern ∈ patterns) →
      Elimination.Faithful ((listElements engine.evaluate list).map (·.pattern))
        subjects.elements := by
    intro list hlist
    rw [map_pattern_listElements]
    exact Elimination.faithful_of_covers hcovers hlist hsubjects
  by_cases hlength : patterns.length = subjects.length
  · rw [mem_matchCommutative_iff (hfaithful patterns fun _ h => h)
      (by rwa [length_listElements]), patternsLeft_listElements] at hfound
    rw [Elimination.subjectsLeft, map_pattern_listElements] at hfound
    rcases hfound with ⟨hgoes, order, horder, hfound⟩
    have hskip := Elimination.perm_skip_of_perm subjects.elements
      (fun a ha b hb => hcovers.alike (Or.inr (Or.inl ha)) (Or.inr (Or.inl hb))) hperm
    rcases exists_order_of_perm hnatives hcovers hbinds
      (fun pattern hpattern => Elimination.mem_of_mem_skip hpattern)
      (fun subject hsubject =>
        hsubjects subject (Elimination.mem_of_mem_skip (horder.subset hsubject)))
      (hindependent.sublist (Elimination.skip_sublist _ _)) hskip hfound with
      ⟨order', horder', found', hfound', hagree⟩
    refine ⟨found', ?_, hagree⟩
    rw [mem_matchCommutative_iff (hfaithful others fun _ h => hperm.mem_iff.mpr h)
      (by rwa [length_listElements, ← hperm.length_eq]), patternsLeft_listElements,
      Elimination.subjectsLeft, map_pattern_listElements, ← Elimination.paired_of_perm hperm]
    exact ⟨hgoes.of_perm hskip, order', horder'.trans horder, hfound'⟩
  · rw [matchCommutative, if_neg (by rwa [length_listElements]),
      Traced.alternatives_failed] at hfound
    cases hfound

end

theorem not_findEqual_of_isEmpty {found other : List Bindings} (hfound : found.isEmpty = false)
    (hother : other.isEmpty = true) : ¬FindEqual (· ∈ found) (· ∈ other) := by
  intro hequal
  rcases List.isEmpty_eq_false_iff_exists_mem.mp hfound with ⟨binds, hbinds⟩
  rcases hequal.1 binds hbinds with ⟨equal, hmem, -⟩
  rw [List.isEmpty_iff.mp hother] at hmem
  cases hmem

namespace Engine

/-- The order in which independent patterns are tried makes no difference: neither if the subjects
are moved along with them, nor if the order of the subjects does not matter. -/
theorem findEqual_of_perm {engine : Engine} (hnatives : engine.natives.Agree id engine.natives)
    {p : Atom → Prop} {patterns : List Atom} (hcovers : Covers p patterns) {binds : Bindings}
    (hbinds : binds.Ascending) (hindependent : patterns.Pairwise (Independent binds)) :
    (∀ pairs others : List (Atom × Atom), pairs.map Prod.fst = patterns →
      (∀ pair ∈ pairs, p pair.2) → pairs.Perm others →
        FindEqual
          (· ∈ (engine.matchList (pairs.map Prod.fst) (pairs.map Prod.snd) binds).alternatives)
          (· ∈ (engine.matchList (others.map Prod.fst) (others.map Prod.snd)
            binds).alternatives)) ∧
    ∀ (others : List Atom) (subjects : Sequence Atom), patterns.Perm others →
      (∀ subject ∈ subjects.elements, p subject) →
        FindEqual
          (· ∈ (Sequence.matchCommutative (listElements engine.evaluate patterns) subjects
            binds).alternatives)
          (· ∈ (Sequence.matchCommutative (listElements engine.evaluate others) subjects
            binds).alternatives) := by
  constructor
  · rintro pairs others rfl hsubjects hperm
    have hpairs : ∀ pair ∈ pairs, pair.1 ∈ pairs.map Prod.fst ∧ p pair.2 := fun pair hpair =>
      ⟨List.mem_map_of_mem hpair, hsubjects pair hpair⟩
    refine FindEqual.of_agrees id ?_ ?_
    · exact fun found hfound =>
        exists_pairFindings hnatives hcovers hbinds hperm hpairs hindependent hfound
    · exact fun found hfound => exists_pairFindings hnatives hcovers hbinds hperm.symm
        (fun pair hpair => hpairs pair (hperm.mem_iff.mpr hpair))
        (hindependent.perm (hperm.map Prod.fst) fun h => h.symm) hfound
  · intro others subjects hperm hsubjects
    refine FindEqual.of_agrees id ?_ ?_
    · exact fun found hfound => Sequence.exists_matchCommutative_of_perm hnatives hcovers hbinds
        hindependent hperm hsubjects hfound
    · exact fun found hfound => Sequence.exists_matchCommutative_of_perm hnatives
        (hcovers.perm hperm) hbinds (hindependent.perm hperm fun h => h.symm) hperm.symm hsubjects
        hfound

def guardedPairs : List (Atom × Atom) :=
  [(.free "y" .any, .integer 1), (.var "x" .any (some (.free "x" .any)) 0 .new, .boolean true)]

def numberAndFlag : List Atom :=
  [.integer 1, .boolean true, (Atom.integer 1).type, (Atom.boolean true).type,
    .typeUniverse .common]

theorem covers_numberAndFlag : Covers (· ∈ numberAndFlag) (guardedPairs.map Prod.fst) where
  inherited :=
    { type := by simp [numberAndFlag, Atom.type, integer, boolean, ofLiteral]
      lambda := by simp [numberAndFlag, Atom.type, integer, boolean, ofLiteral]
      law := by simp [numberAndFlag, Atom.type, integer, boolean, ofLiteral]
      sequence := by simp [numberAndFlag, Atom.type, integer, boolean, ofLiteral]
      application := by simp [numberAndFlag, Atom.type, integer, boolean, ofLiteral]
      run := by simp [numberAndFlag, Atom.type, integer, boolean, ofLiteral]
      applied := by simp [numberAndFlag, Atom.type, integer, boolean, ofLiteral] }
  notFree := by
    have hfree : ∀ atom ∈ numberAndFlag, atom.isFreeVar = false := by decide
    exact fun {atom} h => hfree atom h
  alike := by
    have hnodup : ((numberAndFlag ++ guardedPairs.map Prod.fst).map fingerprint).Nodup := by
      decide +kernel
    have hmem : ∀ a, (a ∈ numberAndFlag ∨ a ∈ guardedPairs.map Prod.fst ∨
        ∃ pattern ∈ guardedPairs.map Prod.fst, pattern.Meets a) →
          a ∈ numberAndFlag ++ guardedPairs.map Prod.fst := by
      rintro a (ha | ha | ⟨pattern, hpattern, hmeets⟩)
      · exact List.mem_append_left _ ha
      · exact List.mem_append_right _ ha
      · refine List.mem_append_right _ ?_
        rcases List.mem_pair.mp hpattern with rfl | rfl
        · exact meets_var_iff.mp hmeets |>.elim (· ▸ hpattern) fun h => absurd h not_meets_any
        · exact meets_var_iff.mp hmeets |>.elim (· ▸ hpattern) fun h => absurd h not_meets_any
    intro a b ha hb hfingerprint
    rw [List.inj_on_of_nodup_map hnodup (hmem a ha) (hmem b hb) hfingerprint]
    exact Like.refl b

theorem independent_guardedPairs :
    (guardedPairs.map Prod.fst).Pairwise (Independent .empty) := by
  have hnames : ∀ pattern other : Atom, pattern = .free "y" .any →
      other = .var "x" .any (some (.free "x" .any)) 0 .new → Independent .empty pattern other := by
    rintro _ _ rfl rfl
    have hfirst : (Atom.free "y" .any).patternVariables = [("y", none)] := rfl
    have hsecond : (Atom.var "x" .any (some (.free "x" .any)) 0 .new).patternVariables =
        [("x", some (.free "x" .any))] := rfl
    refine ⟨?_, ?_, ?_⟩
    · intro name condition h
      cases List.mem_singleton.mp (hfirst ▸ h)
    · intro name condition h key hkey hne _
      cases List.mem_singleton.mp (hsecond ▸ h)
      rw [patternNames, hfirst] at hkey
      cases List.mem_singleton.mp hkey
      simp [free, any, Everywhere, OptionEverywhere, Unnamed]
    · intro name guard guard' h h'
      cases List.mem_singleton.mp (hfirst ▸ h)
      have hname : "y" = "x" := (Prod.mk.inj (List.mem_singleton.mp (hsecond ▸ h'))).1
      exact absurd hname (by decide)
  exact List.pairwise_pair.mpr (hnames _ _ rfl rfl)

theorem findEqual_of_perm_guardedPairs :
    idle.natives.Agree id idle.natives ∧ Covers (· ∈ numberAndFlag) (guardedPairs.map Prod.fst) ∧
      NameMap.empty.Ascending ∧ (guardedPairs.map Prod.fst).Pairwise (Independent .empty) ∧
      FindEqual
        (· ∈ (idle.matchList (guardedPairs.map Prod.fst) (guardedPairs.map Prod.snd)
          .empty).alternatives)
        (· ∈ (idle.matchList (guardedPairs.reverse.map Prod.fst) (guardedPairs.reverse.map Prod.snd)
          .empty).alternatives) := by
  have h := findEqual_of_perm agree_idle covers_numberAndFlag NameMap.ascending_empty
    independent_guardedPairs
  refine ⟨agree_idle, covers_numberAndFlag, NameMap.ascending_empty, independent_guardedPairs,
    h.1 guardedPairs guardedPairs.reverse rfl ?_ (List.reverse_perm guardedPairs).symm⟩
  simp [guardedPairs, numberAndFlag]

/-- A literal, and the variable that takes another one after the first one is known to be `true`. -/
def awaitingPairs : List (Atom × Atom) :=
  [(.free "y" .any, .boolean true), (.var "x" .any (some (.free "y" .any)) 0 .new, .integer 2)]

/-- A guard that mentions the variable of another pattern needs this one to be matched before. -/
theorem not_findEqual_awaitingPairs :
    awaitingPairs.Perm awaitingPairs.reverse ∧
      (∀ pair ∈ awaitingPairs, pair.2.isConstant = true) ∧
      ¬FindEqual
        (· ∈ (idle.matchList (awaitingPairs.map Prod.fst) (awaitingPairs.map Prod.snd)
          .empty).alternatives)
        (· ∈ (idle.matchList (awaitingPairs.reverse.map Prod.fst)
          (awaitingPairs.reverse.map Prod.snd) .empty).alternatives) ∧
      ¬FindEqual
        (· ∈ (Sequence.matchCommutative (listElements idle.evaluate (awaitingPairs.map Prod.fst))
          ⟨.none, awaitingPairs.map Prod.snd⟩ .empty).alternatives)
        (· ∈ (Sequence.matchCommutative
          (listElements idle.evaluate (awaitingPairs.reverse.map Prod.fst))
          ⟨.none, awaitingPairs.map Prod.snd⟩ .empty).alternatives) := by
  refine ⟨(List.reverse_perm awaitingPairs).symm, by decide, ?_, ?_⟩
  · have hfound : (idle.matchList (awaitingPairs.map Prod.fst) (awaitingPairs.map Prod.snd)
        .empty).alternatives.isEmpty = false := by
      decide +kernel
    have hnone : (idle.matchList (awaitingPairs.reverse.map Prod.fst)
        (awaitingPairs.reverse.map Prod.snd) .empty).alternatives.isEmpty = true := by
      decide +kernel
    exact not_findEqual_of_isEmpty hfound hnone
  · have hfound : (Sequence.matchCommutative
        (listElements idle.evaluate (awaitingPairs.map Prod.fst))
        ⟨.none, awaitingPairs.map Prod.snd⟩ .empty).alternatives.isEmpty = false := by
      decide +kernel
    have hnone : (Sequence.matchCommutative
        (listElements idle.evaluate (awaitingPairs.reverse.map Prod.fst))
        ⟨.none, awaitingPairs.map Prod.snd⟩ .empty).alternatives.isEmpty = true := by
      decide +kernel
    exact not_findEqual_of_isEmpty hfound hnone

end Engine

end Equational
