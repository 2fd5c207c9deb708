import Equational.Engine
import Equational.Proofs.Alternatives
import Equational.Proofs.Searches

/-!
# What matching makes of binding sets

Matching binds names to the subject, to parts of it, and to runs of its elements
that are wrapped up, and changes no name that is bound.  So an invariant holds
between the binding sets before and after a match if it holds where one such
atom is bound anew.  A name that is bound stays bound to the same atom; and a
condition that atoms pass on to their parts holds for all that is bound.
-/

namespace Equational

namespace NameMap

/-- The second binding set gives every name of the first one the same atom. -/
def Extends (binds found : Bindings) : Prop :=
  ∀ name atom, binds.find? name = some atom → found.find? name = some atom

theorem Extends.refl (binds : Bindings) : binds.Extends binds :=
  fun _ _ h => h

theorem Extends.trans {first second third : Bindings} (hfirst : first.Extends second)
    (hsecond : second.Extends third) : first.Extends third :=
  fun name atom h => hsecond name atom (hfirst name atom h)

theorem extends_insert {binds : Bindings} {name : String} (h : binds.find? name = none)
    (atom : Atom) : binds.Extends (binds.insert name atom) := by
  intro other value hother
  have hne : other ≠ name := by
    intro heq
    rw [heq, h] at hother
    cases hother
  rwa [find?_insert_of_ne binds atom hne]

/-- Every name that the second binding set binds beyond the first one is of one kind. -/
def Gains (n : String → Prop) (binds found : Bindings) : Prop :=
  ∀ name, found.contains name = true → binds.contains name = true ∨ n name

section

variable {n : String → Prop}

theorem Gains.refl (binds : Bindings) : binds.Gains n binds :=
  fun _ h => Or.inl h

theorem Gains.trans {first second third : Bindings} (hfirst : first.Gains n second)
    (hsecond : second.Gains n third) : first.Gains n third :=
  fun name h => (hsecond name h).elim (hfirst name) Or.inr

theorem Gains.find?_eq_none {binds found : Bindings} (h : binds.Gains n found) {name : String}
    (hunbound : binds.find? name = none) (hname : ¬n name) : found.find? name = none := by
  cases hfound : found.find? name with
  | none => rfl
  | some atom =>
      rcases h name (by rw [contains, hfound]; rfl) with hbound | hgained
      · rw [contains, hunbound] at hbound
        cases hbound
      · exact absurd hgained hname

theorem gains_insert {binds : Bindings} {name : String} (h : n name) (atom : Atom) :
    binds.Gains n (binds.insert name atom) := by
  intro other hother
  by_cases hname : other = name
  · rw [hname]
    exact Or.inr h
  · rw [contains, find?_insert_of_ne binds atom hname] at hother
    exact Or.inl hother

end

def All (p : Atom → Prop) (binds : Bindings) : Prop :=
  ∀ name atom, binds.find? name = some atom → p atom

variable {p : Atom → Prop}

theorem all_empty : All p .empty := by
  intro name atom h
  rw [find?_empty] at h
  cases h

theorem All.insert {binds : Bindings} (h : binds.All p) {name : String} {atom : Atom}
    (hatom : p atom) : (binds.insert name atom).All p := by
  intro other found hfound
  by_cases hname : other = name
  · rw [hname, find?_insert_self, Option.some_inj] at hfound
    rwa [← hfound]
  · rw [find?_insert_of_ne binds atom hname] at hfound
    exact h other found hfound

end NameMap

/-!
## Invariants
-/

/-- A relation of the binding sets before and after a match of a pattern whose variables have names
of one kind with a subject that satisfies a condition. -/
structure Invariant (n : String → Prop) (p : Atom → Prop) (r : Bindings → Bindings → Prop) :
    Prop where
  inherited : Inherited p
  refl (binds : Bindings) : r binds binds
  trans {first second third : Bindings} : r first second → r second third → r first third
  insert {binds : Bindings} {name : String} {atom : Atom} :
    n name → binds.find? name = none → p atom → r binds (binds.insert name atom)

theorem invariant_extends : Invariant (fun _ => True) (fun _ => True) NameMap.Extends where
  inherited := inherited_true
  refl := NameMap.Extends.refl
  trans := NameMap.Extends.trans
  insert _ hfind _ := NameMap.extends_insert hfind _

theorem invariant_all {p : Atom → Prop} (h : Inherited p) :
    Invariant (fun _ => True) p fun binds found => binds.All p → found.All p where
  inherited := h
  refl _ hbinds := hbinds
  trans hfirst hsecond hbinds := hsecond (hfirst hbinds)
  insert _ _ hatom hbinds := hbinds.insert hatom

theorem invariant_gains (n : String → Prop) :
    Invariant n (fun _ => True) fun binds found => binds.Extends found ∧ binds.Gains n found where
  inherited := inherited_true
  refl binds := ⟨.refl binds, .refl binds⟩
  trans hfirst hsecond := ⟨hfirst.1.trans hsecond.1, hfirst.2.trans hsecond.2⟩
  insert hname hfind _ := ⟨NameMap.extends_insert hfind _, NameMap.gains_insert hname _⟩

/-!
## What matchers find

A name is bound to the subject, and to nothing else if it was bound before.  A pattern with parts
takes an equal subject if it is constant, or else its parts take those of the subject.
-/

namespace Matcher

theorem mem_ofBound {pattern subject : Atom} {binds found : Bindings}
    (h : found ∈ (ofBound pattern subject binds).alternatives) :
    (pattern == subject) = true ∧ found = binds := by
  unfold ofBound at h
  split at h
  · exact ⟨by assumption, by simpa using h⟩
  · cases h

theorem mem_ofLeaf {pattern subject : Atom} {binds found : Bindings}
    (h : found ∈ (ofLeaf pattern subject binds).alternatives) :
    (pattern == subject) = true ∧ found = binds := by
  unfold ofLeaf at h
  split at h
  · exact ⟨by assumption, by simpa using h⟩
  · cases h

theorem mem_bind {evaluate : GuardEvaluator} {pattern subject : Atom} {name : String}
    {guard : Option Atom} {binds found : Bindings}
    (h : found ∈ (bind evaluate pattern name guard subject binds).alternatives) :
    (∃ existing, binds.find? name = some existing ∧ (existing == subject) = true ∧
        found = binds) ∨
      (binds.find? name = none ∧ found = binds.insert name subject) := by
  unfold bind at h
  cases hfind : binds.find? name with
  | some existing =>
      rw [hfind] at h
      simp only at h
      split at h
      · exact Or.inl ⟨existing, rfl, by assumption, by simpa using h⟩
      · cases h
  | none =>
      rw [hfind] at h
      refine Or.inr ⟨rfl, ?_⟩
      cases guard with
      | none => simpa using h
      | some condition =>
          simp only [Traced.alternatives_andThen] at h
          split at h
          · cases h
          · split at h
            · simpa using h
            · cases h

theorem mem_ofFree {evaluate : GuardEvaluator} {pattern subject : Atom} {name : String}
    {guard : Option Atom} {type : Matcher} {binds found : Bindings}
    (h : found ∈ (ofFree evaluate pattern name guard type subject binds).alternatives) :
    ((pattern == subject) = true ∧ found = binds) ∨
      ((pattern == subject) = false ∧ ∃ middle ∈ (type subject.type binds).alternatives,
        found ∈ (bind evaluate pattern name guard subject middle).alternatives) := by
  unfold ofFree at h
  cases hsame : pattern == subject with
  | true =>
      rw [hsame] at h
      simp only [if_true] at h
      refine Or.inl ⟨rfl, ?_⟩
      split at h
      · split at h
        · simpa using h
        · cases h
      · simpa using h
  | false =>
      rw [hsame] at h
      simp only [Bool.false_eq_true, if_false, Traced.alternatives_continued,
        Traced.alternatives_mapFailure, List.mem_flatMap] at h
      exact Or.inr ⟨rfl, h⟩

theorem mem_ofStructure {pattern subject : Atom} {type parts : Matcher} {binds found : Bindings}
    (h : found ∈ (ofStructure pattern type parts subject binds).alternatives) :
    (pattern.isConstant = true ∧ (pattern == subject) = true ∧ found = binds) ∨
      (pattern.depth ≤ subject.depth ∧ ∃ middle ∈ (type subject.type binds).alternatives,
        found ∈ (parts subject middle).alternatives) := by
  unfold ofStructure at h
  have hparts : ∀ {found}, found ∈ (if subject.depth < pattern.depth then
        failBetween .patternDeeper pattern subject
      else ((type subject.type binds).mapFailure fun failure =>
          (Failure.between .typesDiffer pattern subject).causedBy failure)
        |>.continued fun binds => parts subject binds).alternatives →
      pattern.depth ≤ subject.depth ∧ ∃ middle ∈ (type subject.type binds).alternatives,
        found ∈ (parts subject middle).alternatives := by
    intro found hmem
    split at hmem
    · cases hmem
    · rw [Traced.alternatives_continued, Traced.alternatives_mapFailure, List.mem_flatMap] at hmem
      exact ⟨Nat.le_of_not_lt ‹_›, hmem⟩
  simp only at h
  split at h
  · split at h
    · exact Or.inl ⟨by assumption, by assumption, by simpa using h⟩
    · split at h
      · exact Or.inr (hparts h)
      · cases h
  · exact Or.inr (hparts h)

theorem alternatives_ofStructure {pattern subject : Atom} {type parts : Matcher} {binds : Bindings}
    (hconstant : pattern.isConstant = false) (hdepth : pattern.depth ≤ subject.depth) :
    (ofStructure pattern type parts subject binds).alternatives =
      (type subject.type binds).alternatives.flatMap fun middle =>
        (parts subject middle).alternatives := by
  unfold ofStructure
  simp only [hconstant, Bool.false_eq_true, if_false, Nat.not_lt.mpr hdepth,
    Traced.alternatives_continued, Traced.alternatives_mapFailure]

end Matcher

variable {n : String → Prop} {p : Atom → Prop} {r : Bindings → Bindings → Prop}

def Search.Keeps (r : Bindings → Bindings → Prop) (search : Search) : Prop :=
  ∀ binds found, found ∈ (search binds).alternatives → r binds found

theorem Search.closed_keeps (hinherited : Inherited p) (hrefl : ∀ binds, r binds binds)
    (htrans : ∀ {first second third}, r first second → r second third → r first third) :
    Search.Closed p (Search.Keeps r)
      fun alternatives => ∀ binds found, found ∈ (alternatives binds).bindings → r binds found where
  inherited := hinherited
  found := by
    intro binds found hfound
    rw [List.mem_singleton.mp hfound]
    exact hrefl binds
  failed _ := by
    intro binds found hfound
    cases hfound
  watched hsearch := hsearch
  mapFailure f hsearch := by
    intro binds found hfound
    rw [Traced.alternatives_mapFailure] at hfound
    exact hsearch binds found hfound
  continued hsearch hnext := by
    intro binds found hfound
    rw [Traced.alternatives_continued, List.mem_flatMap] at hfound
    rcases hfound with ⟨middle, hmiddle, hfound⟩
    exact htrans (hsearch binds middle hmiddle) (hnext middle found hfound)
  noticed _ hsearch := hsearch
  firstOf _ halternatives := by
    intro binds found hfound
    rw [Outcome.alternatives_firstOf] at hfound
    exact halternatives binds found hfound
  all _ hsearch := by
    intro binds found hfound
    rw [Stream.bindings_noticed, Traced.bindings_stream] at hfound
    exact hsearch binds found hfound
  flatMap hf := by
    intro binds found hfound
    rw [Stream.bindings_flatMap, List.mem_flatMap] at hfound
    rcases hfound with ⟨a, ha, hfound⟩
    exact hf a ha binds found hfound

/-- Looking up a pattern variable changes nothing, so only binding it has to keep the relation. -/
theorem Search.closedUnderBinding_keeps {evaluate : GuardEvaluator}
    {condition : String → Option Atom → Prop} (hinherited : Inherited p)
    (hrefl : ∀ binds, r binds binds)
    (htrans : ∀ {first second third}, r first second → r second third → r first third)
    (hbind : ∀ {pattern subject : Atom} {name : String} {guard : Option Atom},
      condition name guard → p subject →
        Search.Keeps r (Matcher.bind evaluate pattern name guard subject)) :
    Search.ClosedUnderBinding evaluate condition p (Search.Keeps r)
      fun alternatives => ∀ binds found, found ∈ (alternatives binds).bindings → r binds found where
  toClosed := Search.closed_keeps hinherited hrefl htrans
  known _ := by
    intro binds found hfound
    beta_reduce at hfound
    split at hfound
    · split at hfound
      · rw [List.mem_singleton.mp hfound]
        exact hrefl binds
      · cases hfound
    · rw [List.mem_singleton.mp hfound]
      exact hrefl binds
  bind := hbind

theorem Invariant.closed (h : Invariant n p r) : Search.Closed p (Search.Keeps r)
    fun alternatives => ∀ binds found, found ∈ (alternatives binds).bindings → r binds found :=
  Search.closed_keeps h.inherited h.refl h.trans

theorem Invariant.closedUnderBinding (h : Invariant n p r) (evaluate : GuardEvaluator) :
    Search.ClosedUnderBinding evaluate (fun name _ => n name) p (Search.Keeps r)
      fun alternatives => ∀ binds found, found ∈ (alternatives binds).bindings → r binds found := by
  refine Search.closedUnderBinding_keeps h.inherited h.refl h.trans ?_
  intro pattern subject name guard hname hsubject binds found hfound
  rcases Matcher.mem_bind hfound with ⟨existing, -, -, rfl⟩ | ⟨hfind, rfl⟩
  · exact h.refl found
  · exact h.insert hname hfind hsubject

/-!
## Lists of elements

What all elements find together is found one by one: each element finds its part under what those
before it have found.
-/

namespace Element

abbrev Extending (elements : List Element) : Prop :=
  Holds (fun _ => True) (Search.Keeps NameMap.Extends) elements

theorem extends_of_mem_matchAll {elements : List Element} (h : Extending elements)
    {subjects : List Atom} {binds found : Bindings}
    (hfound : found ∈ (matchAll elements subjects binds).alternatives) :
    binds.Extends found :=
  holds_matchAll invariant_extends.closed h (fun _ _ => trivial) binds found hfound

/-- Under an invariant of the elements, what all of them find together is found by each of
them between two binding sets of the chain. -/
theorem forall₂_of_mem_matchAll {invariant : Bindings → Prop} {elements : List Element}
    (h : Extending elements) {subjects : List Atom} {binds found : Bindings}
    (hstep : ∀ element ∈ elements, ∀ subject ∈ subjects, ∀ b b', invariant b →
      b' ∈ (element.matcher subject b).alternatives → invariant b')
    (hbinds : invariant binds)
    (hfound : found ∈ (matchAll elements subjects binds).alternatives) :
    invariant found ∧ List.Forall₂ (fun element subject => ∃ b b', invariant b ∧ invariant b' ∧
      b' ∈ (Element.matcher element subject b).alternatives ∧ b'.Extends found)
      elements subjects := by
  induction elements generalizing subjects binds with
  | nil =>
      have hlength := length_eq_of_mem_matchAll hfound
      rw [List.length_eq_zero_iff.mp hlength.symm] at hfound ⊢
      rw [List.mem_singleton.mp hfound]
      exact ⟨hbinds, List.Forall₂.nil⟩
  | cons element rest ih =>
      cases subjects with
      | nil => cases length_eq_of_mem_matchAll hfound
      | cons subject subjects =>
          rw [alternatives_matchAll_cons, List.mem_flatMap] at hfound
          rcases hfound with ⟨middle, hmiddle, hfound⟩
          have hnext :=
            hstep element List.mem_cons_self subject List.mem_cons_self _ _ hbinds hmiddle
          rcases ih (List.forall_mem_cons.mp h).2
            (fun e he s hs => hstep e (List.mem_cons_of_mem _ he) s (List.mem_cons_of_mem _ hs))
            hnext hfound with ⟨hinvariant, hrest⟩
          have hextends := extends_of_mem_matchAll (List.forall_mem_cons.mp h).2 hfound
          exact ⟨hinvariant,
            .cons ⟨binds, middle, hbinds, hnext, hmiddle, hextends⟩ hrest⟩

end Element

namespace Atom

variable (evaluate : GuardEvaluator)

theorem keeps_search (h : Invariant n p r) {pattern : Atom}
    (hnames : ∀ v ∈ pattern.patternVariables, n v.1) :
    (search evaluate pattern).Holds p (Search.Keeps r) :=
  holds_search (h.closedUnderBinding evaluate) pattern hnames

theorem keeps_listElements (h : Invariant n p r) {list : List Atom}
    (hnames : ∀ v ∈ list.flatMap patternVariables, n v.1) :
    Element.Holds p (Search.Keeps r) (listElements evaluate list) :=
  holds_listElements (h.closedUnderBinding evaluate) list hnames

theorem extending_listElements (list : List Atom) :
    Element.Extending (listElements evaluate list) :=
  keeps_listElements evaluate invariant_extends fun _ _ => trivial

end Atom

/-!
## What an engine binds
-/

namespace Engine

/-- Matching only extends bindings.  A name that is bound stays bound to the same atom, and every
other name is that of a pattern variable that the match meets. -/
theorem tryMatch_extends {engine : Engine} {pattern subject : Atom} {binds found : Bindings}
    (h : found ∈ (engine.tryMatch pattern subject binds).alternatives) :
    binds.Extends found ∧ ∀ name, found.contains name = true →
      binds.contains name = true ∨ name ∈ pattern.patternVariables.map Prod.fst := by
  have hgains := invariant_gains fun name => name ∈ pattern.patternVariables.map Prod.fst
  have hkeeps := Atom.keeps_search engine.evaluate hgains fun v hv => List.mem_map_of_mem hv
  exact Matcher.holds_watched hgains.closed hkeeps subject trivial binds found h

/-- A commutative pair of a variable whose type is a variable, and a variable without a type. -/
def typedPair : Atom :=
  .sequence ⟨⟨none, some (.boolean true), none, none, none⟩,
    [.free "x" (.free "t" .any), .free "y" .any]⟩ .new

def numberPair : Atom :=
  .sequence ⟨⟨none, some (.boolean true), none, none, none⟩, [.integer 1, .integer 2]⟩ .new

def secondFixed : Bindings := NameMap.empty.insert "y" (.integer 1)

theorem tryMatch_extends_typedPair :
    ∃ found ∈ (tryMatch ⟨fun _ _ => none, 1, []⟩ typedPair numberPair secondFixed).alternatives,
      secondFixed.Extends found ∧ ∀ name, found.contains name = true →
        secondFixed.contains name = true ∨ name ∈ ["x", "t", "y"] := by
  have hsome : (tryMatch ⟨fun _ _ => none, 1, []⟩ typedPair numberPair
      secondFixed).alternatives ≠ [] := by
    decide +kernel
  rcases List.exists_mem_of_ne_nil _ hsome with ⟨found, hfound⟩
  exact ⟨found, hfound, tryMatch_extends hfound⟩

end Engine

end Equational
