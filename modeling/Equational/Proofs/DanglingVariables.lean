import Equational.Proofs.Arrangement
import Equational.Proofs.Composed
import Equational.Proofs.Extension
import Equational.Proofs.Scopes

/-!
# Variables that leave their lambda

A variable that a lambda binds dangles in an atom if no lambda of the atom around it has
its index.  Nothing dangles in a closed atom, but something may in what a match takes
out of it: the body of a lambda is matched like any other part, so that a pattern
variable inside a lambda of the pattern is bound to an atom in which the parameter of
the subject's lambda dangles.  Nothing else does.  A name that the pattern has outside
its lambdas is bound to a closed atom; inside of lambdas, only such indices dangle as
their parameters have taken.
-/

namespace Equational

open Atom Matcher

namespace Atom

/-!
## Dangling variables

Variables dangle in their own right, and inside of a lambda its own index may dangle as well.
Normalization takes elements out of nested sequences, and lets nothing dangle that did not.
-/

/-- The indices of the bound variables in an atom that no lambda around them carries; types, guards,
laws and what operators declare count like all other parts.  What applications store does not
count. -/
def dangling : Atom → List UInt64 :=
  fold fun
    | var _ _ _ index _, inner => (if index = 0 then [] else [index]) ++ inner.flatMap Prod.snd
    | lambda parameter _ _, inner => (inner.flatMap Prod.snd).filter (· != parameter.bindingIndex)
    | _, inner => inner.flatMap Prod.snd

def DanglesIn (scope : UInt64 → Prop) (atom : Atom) : Prop := ∀ index ∈ atom.dangling, scope index

variable {scope : UInt64 → Prop}

theorem danglesIn_any : any.DanglesIn scope := List.forall_mem_nil _

theorem danglesIn_boolean (value : Bool) : (boolean value).DanglesIn scope := List.forall_mem_nil _

theorem forall_mem_flatMap_dangling {parts : List (Role × Atom)} :
    (∀ index ∈ (parts.map fun part => (part.1, part.2.dangling)).flatMap Prod.snd, scope index) ↔
      ∀ part ∈ parts, part.2.DanglesIn scope := by
  simp only [List.mem_flatMap, List.mem_map, DanglesIn]
  constructor
  · exact fun h part hpart index hindex => h index ⟨_, ⟨part, hpart, rfl⟩, hindex⟩
  · rintro h index ⟨_, ⟨part, hpart, rfl⟩, hindex⟩
    exact h part hpart index hindex

theorem danglesIn_iff {atom : Atom} : atom.DanglesIn scope ↔ match atom with
    | var _ _ _ index _ =>
      (index ≠ 0 → scope index) ∧ ∀ part ∈ atom.parts, part.2.DanglesIn scope
    | lambda parameter _ _ => ∀ part ∈ atom.parts,
      part.2.DanglesIn fun index => index ≠ parameter.bindingIndex → scope index
    | _ => ∀ part ∈ atom.parts, part.2.DanglesIn scope := by
  rw [DanglesIn, dangling, fold_eq, ← dangling]
  cases atom with
  | var name type guard index mark =>
      simp only [List.forall_mem_append, forall_mem_flatMap_dangling]
      refine and_congr_left fun _ => ?_
      split
      · rename_i hindex
        exact iff_of_true (List.forall_mem_nil _) fun hne => absurd hindex hne
      · rename_i hindex
        rw [List.forall_mem_singleton, forall_prop_of_true hindex]
  | lambda parameter body mark =>
      simp only [List.forall_mem_filter, bne_iff_ne]
      exact forall_mem_flatMap_dangling
  | _ => exact forall_mem_flatMap_dangling

theorem danglesIn_sequence_iff {s : Sequence Atom} {mark : Mark} :
    (sequence s mark).DanglesIn scope ↔
      (∀ value ∈ s.properties.values, value.DanglesIn scope) ∧
        ∀ atom ∈ s.elements, atom.DanglesIn scope := by
  rw [danglesIn_iff]
  simp only [parts, List.forall_mem_append, List.forall_mem_map]

theorem danglesIn_propertySet_iff {properties : Properties} {mark : Mark} :
    (propertySet properties mark).DanglesIn scope ↔
      ∀ value ∈ properties.values, value.DanglesIn scope := by
  rw [danglesIn_iff]
  simp only [parts, List.forall_mem_map]

theorem danglesIn_application_iff {head argument : Atom} {bound : Bindings} {mark : Mark} :
    (application head argument bound mark).DanglesIn scope ↔
      head.DanglesIn scope ∧ argument.DanglesIn scope := by
  rw [danglesIn_iff]
  exact List.forall_mem_cons.trans (and_congr_right' List.forall_mem_singleton)

theorem danglesIn_lambda {parameter body : Atom} {mark : Mark}
    (h : (lambda parameter body mark).DanglesIn scope) {inner : UInt64 → Prop}
    (hscope : ∀ index, scope index → inner index) (hinner : inner parameter.bindingIndex) :
    parameter.DanglesIn inner ∧ body.DanglesIn inner := by
  have hall : ∀ part ∈ (lambda parameter body mark).parts, part.2.DanglesIn inner := by
    intro part hpart index hindex
    by_cases hown : index = parameter.bindingIndex
    · exact hown ▸ hinner
    · exact hscope index (danglesIn_iff.mp h part hpart index hindex hown)
  exact ⟨hall _ List.mem_cons_self, hall _ (List.mem_cons_of_mem _ List.mem_cons_self)⟩

theorem DanglesIn.type {atom : Atom} (h : atom.DanglesIn scope) : atom.type.DanglesIn scope := by
  cases atom with
  | literal value type mark => exact danglesIn_iff.mp h _ List.mem_cons_self
  | var name type guard index mark => exact (danglesIn_iff.mp h).2 _ List.mem_cons_self
  | application head argument bound mark =>
      have hhead := (danglesIn_application_iff.mp h).1
      cases head with
      | operator op opMark =>
          rcases op with ⟨name, properties, parameters, resultType, native⟩
          cases resultType with
          | none => exact danglesIn_any
          | some result => exact danglesIn_iff.mp hhead (.result, result) (by simp [parts])
      | _ => exact danglesIn_any
  | _ => exact List.forall_mem_nil _

/-- Normalization takes elements out of nested sequences, and lets nothing else dangle. -/
theorem danglesIn_run {properties : Properties} {list run : List Atom}
    (hlaws : ∀ value ∈ properties.values, value.DanglesIn scope)
    (hlist : ∀ atom ∈ list, atom.DanglesIn scope) (hrun : run.Subperm list) :
    (sequence (.ofList properties run) .new).DanglesIn scope :=
  danglesIn_sequence_iff.mpr ⟨hlaws, Sequence.forall_mem_normalize
    (fun _ _ hs => (danglesIn_sequence_iff.mp hs).2)
    fun atom hatom => hlist atom (hrun.subset hatom)⟩

/-!
## The lambdas around the variables of a pattern

A match meets the parts of a pattern under the parameters of the lambdas around them, which are
matched before their bodies.
-/

/-- The parameters of the lambdas around the parts of an atom, given those around the atom. -/
def inside (around : List Atom) : Atom → List Atom
  | lambda parameter _ _ => parameter :: around
  | _ => around

/-- The parts that a match meets, each with the parameters of the lambdas around it. -/
def scopedPart (place : List Atom × Bool) (atom : Atom) (role : Role) : Option (List Atom × Bool) :=
  (meetsPart place.2 atom role).map (inside place.1 atom, ·)

/-- The names of the pattern variables that a match with an atom meets, each with the parameters of
the lambdas around it, those of a given list included. -/
def scopedVariables (around : List Atom) (atom : Atom) : List (String × List Atom) :=
  (atom.visited scopedPart (around, false)).flatMap fun visit =>
    visit.2.freeVariable.map fun v => (v.1, visit.1.1)

/-- As the parameter of a lambda in a pattern, the atom can meet a variable of the index: if it is
bound itself, it equals such a variable. -/
def Takes (parameter : Atom) (index : UInt64) : Prop :=
  ∃ v : Atom, v.bindingIndex = index ∧ (parameter.isBoundVar = true → (parameter == v) = true)

def TakenBy (parameters : List Atom) (index : UInt64) : Prop :=
  ∃ parameter ∈ parameters, parameter.Takes index

theorem danglesIn_takenBy_nil_iff {atom : Atom} :
    atom.DanglesIn (TakenBy []) ↔ atom.dangling = [] := by
  simp only [DanglesIn, TakenBy, List.not_mem_nil, false_and, exists_false, imp_false,
    List.eq_nil_iff_forall_not_mem]

end Atom

/-!
## What is bound anew
-/

/-- Every name that the second binding set binds anew is bound to an atom that suits it. -/
def NameMap.Adds (q : String → Atom → Prop) (binds found : Bindings) : Prop :=
  ∀ name atom, found.find? name = some atom → binds.find? name = some atom ∨ q name atom

section

variable {q : String → Atom → Prop}

theorem NameMap.Adds.refl (binds : Bindings) : binds.Adds q binds := fun _ _ h => Or.inl h

theorem NameMap.Adds.trans {first second third : Bindings} (hfirst : first.Adds q second)
    (hsecond : second.Adds q third) : first.Adds q third :=
  fun name atom h => (hsecond name atom h).elim (hfirst name atom) Or.inr

theorem NameMap.adds_insert (binds : Bindings) {name : String} {atom : Atom} (h : q name atom) :
    binds.Adds q (binds.insert name atom) := by
  intro other value hvalue
  by_cases hname : other = name
  · rw [hname, find?_insert_self, Option.some_inj] at hvalue
    exact Or.inr (hvalue ▸ hname ▸ h)
  · rw [find?_insert_of_ne _ _ hname] at hvalue
    exact Or.inl hvalue

end

namespace Search

variable {q : String → Atom → Prop}

abbrev Suits (q : String → Atom → Prop) (search : Search) : Prop := Keeps (NameMap.Adds q) search

end Search

namespace Matcher

variable {q : String → Atom → Prop} {p : Atom → Prop}

theorem suits_always : Holds p (Search.Suits q) always := by
  intro subject _ binds found hfound
  rw [List.mem_singleton.mp hfound]
  exact .refl _

theorem suits_ofLeaf (pattern : Atom) : Holds p (Search.Suits q) (ofLeaf pattern) := by
  intro subject _ binds found hfound
  rw [(mem_ofLeaf hfound).2]
  exact .refl _

theorem suits_ofFree {evaluate : GuardEvaluator} {pattern : Atom} {name : String}
    {guard : Option Atom} {type : Matcher} (htype : type.Holds p (Search.Suits q))
    (hp : ∀ {subject}, p subject → p subject.type)
    (hname : ∀ subject, p subject → q name subject) :
    Holds p (Search.Suits q) (ofFree evaluate pattern name guard type) := by
  intro subject hsubject binds found hfound
  rcases mem_ofFree hfound with ⟨-, rfl⟩ | ⟨-, middle, hmiddle, hbind⟩
  · exact .refl _
  · refine (htype _ (hp hsubject) binds middle hmiddle).trans ?_
    rcases mem_bind hbind with ⟨existing, -, -, rfl⟩ | ⟨-, rfl⟩
    · exact .refl _
    · exact NameMap.adds_insert _ (hname subject hsubject)

theorem suits_ofStructure {pattern : Atom} {type parts : Matcher}
    (htype : type.Holds p (Search.Suits q)) (hp : ∀ {subject}, p subject → p subject.type)
    (hparts : parts.Holds p (Search.Suits q)) :
    Holds p (Search.Suits q) (ofStructure pattern type parts) := by
  intro subject hsubject binds found hfound
  rcases mem_ofStructure hfound with ⟨-, -, rfl⟩ | ⟨-, middle, hmiddle, hfound⟩
  · exact .refl _
  · exact (htype _ (hp hsubject) binds middle hmiddle).trans
      (hparts _ hsubject middle found hfound)

end Matcher

/-!
## Lists of elements

Whatever is found for a list of elements is found for some of them in runs of the subjects:
elimination takes elements and subjects away, and brings nothing in.
-/

namespace Element

variable {q : String → Atom → Prop} {p : Atom → Prop}

theorem suits_matchAll {elements : List Element} (helements : Holds p (Search.Suits q) elements)
    {subjects : List Atom} (hsubjects : ∀ atom ∈ subjects, p atom) :
    Search.Suits q (matchAll elements subjects) := by
  induction elements generalizing subjects with
  | nil =>
      intro binds found hfound
      have hnil : subjects = [] :=
        List.length_eq_zero_iff.mp (length_eq_of_mem_matchAll hfound).symm
      rw [hnil] at hfound
      rw [List.mem_singleton.mp hfound]
      exact .refl _
  | cons element rest ih =>
      intro binds found hfound
      cases subjects with
      | nil => cases length_eq_of_mem_matchAll hfound
      | cons subject subjects =>
          rw [alternatives_matchAll_cons, List.mem_flatMap] at hfound
          rcases hfound with ⟨middle, hmiddle, hfound⟩
          have hparts := List.forall_mem_cons.mp helements
          have hatoms := List.forall_mem_cons.mp hsubjects
          exact (hparts.1 subject hatoms.1 binds middle hmiddle).trans
            (ih hparts.2 hatoms.2 middle found hfound)

end Element

namespace Sequence

variable {wrapper : Wrapper} {elements : List Element} {subjects : Sequence Atom}
  {binds found : Bindings}

/-- The elements are some of those given, and the runs are taken from the subjects. -/
def FoundInRuns (wrapper : Wrapper) (elements : List Element) (subjects : List Atom)
    (binds found : Bindings) : Prop :=
  ∃ (left : List Element) (runs : List (List Atom)), left.Sublist elements ∧
    (∀ run ∈ runs, run.Subperm subjects) ∧
      found ∈ (Element.matchAll left (runs.map wrapper.wrap) binds).alternatives

theorem foundInRuns_of_arrangement {associative commutative : Bool} {atoms : List Atom} {k : Nat}
    {left : List Element} {runs : List (List Atom)} (hleft : left.Sublist elements)
    (hatoms : atoms.Subperm subjects.elements)
    (harrangement : Arrangement associative commutative atoms k runs)
    (hfound : found ∈ (Element.matchAll left (runs.map wrapper.wrap) binds).alternatives) :
    FoundInRuns wrapper elements subjects.elements binds found :=
  ⟨left, runs, hleft, fun _ hrun => (List.sublist_flatten_of_mem hrun).subperm.trans
    (harrangement.perm.subperm.trans hatoms), hfound⟩

theorem exists_left_of_mem_andThen {next : List Element → List Atom → Traced Outcome}
    (hfound : found ∈ ((eliminateConstants elements subjects).andThen fun left =>
      match left with
      | .error failure => .of (.failed failure)
      | .ok (left, atoms) => next left atoms).alternatives) :
    ∃ left atoms, left.Sublist elements ∧ atoms.Sublist subjects.elements ∧
      found ∈ (next left atoms).alternatives := by
  rw [Traced.alternatives_andThen] at hfound
  cases hvalue : (eliminateConstants elements subjects).value with
  | error failure =>
      rw [hvalue] at hfound
      cases hfound
  | ok left =>
      rw [hvalue] at hfound
      have hsublist := sublist_of_eliminateConstants hvalue
      exact ⟨left.1, left.2, hsublist.1, hsublist.2, hfound⟩

theorem foundInRuns_of_mem_matchElements
    (hfound : found ∈ (matchElements wrapper elements subjects binds).alternatives) :
    FoundInRuns wrapper elements subjects.elements binds found := by
  cases hcommutative : subjects.properties.isCommutative with
  | false =>
      rcases (mem_matchElements_iff hcommutative).mp hfound with ⟨runs, harrangement, hall⟩
      exact foundInRuns_of_arrangement (.refl _) (.refl _) harrangement hall
  | true =>
      unfold matchElements at hfound
      simp only [hcommutative, if_true] at hfound
      split at hfound
      · rename_i hlength
        rw [matchCommutative, if_pos hlength] at hfound
        rcases exists_left_of_mem_andThen hfound with ⟨left, atoms, hleft, hatoms, hmem⟩
        rw [Outcome.alternatives_firstOf, Element.mem_matchOrders_iff] at hmem
        rcases hmem with ⟨order, horder, hall⟩
        exact foundInRuns_of_arrangement hleft hatoms.subperm
          (arrangement_singles true true horder (by simp)) (by rwa [map_wrap_singles])
      · split at hfound
        · rcases exists_left_of_mem_andThen hfound with ⟨left, atoms, hleft, hatoms, hmem⟩
          rcases mem_matchArrangements_iff.mp hmem with ⟨runs, harrangement, hall⟩
          exact foundInRuns_of_arrangement hleft hatoms.subperm harrangement hall
        · cases hfound

variable {q : String → Atom → Prop} {p : Atom → Prop}

theorem suits_matchElements (helements : Element.Holds p (Search.Suits q) elements)
    (hwrapper : wrapper.Has p subjects.elements) :
    Search.Suits q (matchElements wrapper elements subjects) := by
  intro binds found hfound
  rcases foundInRuns_of_mem_matchElements hfound with ⟨left, runs, hleft, hruns, hall⟩
  refine Element.suits_matchAll (fun element hmem => helements element (hleft.subset hmem)) ?_
    binds found hall
  exact List.forall_mem_map.mpr fun run hrun => hwrapper run (hruns run hrun)

theorem suits_matchLaws {pattern : PropertySet Element}
    (hlaws : Element.Holds p (Search.Suits q) (pattern.specified.map (·.2))) {subject : Properties}
    (hsubject : ∀ law value, subject.effective? law = some value → p value) :
    Search.Suits q (pattern.matchLaws subject) := by
  intro binds found hfound
  unfold PropertySet.matchLaws at hfound
  split at hfound
  · cases hfound
  · rename_i values hvalues
    refine Element.suits_matchAll hlaws (fun value hvalue => ?_) binds found hfound
    rcases PropertySet.mem_effectives hvalues value hvalue with ⟨law, hlaw⟩
    exact hsubject law value hlaw

theorem suits_matchUnder {pattern : Sequence Element}
    (hlaws : Element.Holds p (Search.Suits q) (pattern.properties.specified.map (·.2)))
    (helements : Element.Holds p (Search.Suits q) pattern.elements)
    (hsubject : ∀ law value, subjects.properties.effective? law = some value → p value)
    (hwrapper : wrapper.Has p subjects.elements) :
    Search.Suits q (matchUnder wrapper pattern subjects) := by
  intro binds found hfound
  rw [matchUnder, Traced.alternatives_continued, Traced.alternatives_mapFailure,
    List.mem_flatMap] at hfound
  rcases hfound with ⟨middle, hmiddle, hfound⟩
  exact (suits_matchLaws hlaws hsubject binds middle hmiddle).trans
    (suits_matchElements helements hwrapper middle found hfound)

end Sequence

/-!
## Parts of atoms
-/

namespace Matcher

variable {q : String → Atom → Prop} {scope : UInt64 → Prop}

theorem danglesIn_of_effective {properties : Properties}
    (h : ∀ value ∈ properties.values, value.DanglesIn scope) (law : Law) (value : Atom)
    (hvalue : properties.effective? law = some value) : value.DanglesIn scope := by
  rcases PropertySet.get_or_false_of_effective hvalue with hget | rfl
  · exact h value (PropertySet.mem_values.mpr ⟨law, hget⟩)
  · exact danglesIn_boolean false

/-- The body of a lambda is matched under the parameter, which has taken the subject's parameter by
then. -/
theorem suits_lambdaParts {pattern : Atom} {parameter body : Element} {around : List Atom}
    (hparameter : parameter.matcher.Holds (DanglesIn (TakenBy (parameter.pattern :: around)))
      (Search.Suits q))
    (htakes : ∀ {subject binds found}, found ∈ (parameter.matcher subject binds).alternatives →
      parameter.pattern.Takes subject.bindingIndex)
    (hbody : body.matcher.Holds (DanglesIn (TakenBy (parameter.pattern :: around)))
      (Search.Suits q)) :
    Holds (DanglesIn (TakenBy around)) (Search.Suits q) (lambdaParts pattern parameter body) := by
  intro subject hsubject binds found hfound
  cases subject with
  | lambda subjectParameter subjectBody mark =>
      rw [lambdaParts, Element.alternatives_matchAll_cons, List.mem_flatMap] at hfound
      rcases hfound with ⟨middle, hmiddle, hfound⟩
      rw [Element.alternatives_matchAll_cons, List.mem_flatMap] at hfound
      rcases hfound with ⟨last, hlast, hfound⟩
      rw [List.mem_singleton.mp hfound]
      have houter : ∀ index, TakenBy around index → TakenBy (parameter.pattern :: around) index :=
        fun index ⟨v, hv, htaken⟩ => ⟨v, List.mem_cons_of_mem _ hv, htaken⟩
      have hinner := danglesIn_lambda hsubject houter ⟨_, List.mem_cons_self, htakes hmiddle⟩
      exact (hparameter _ hinner.1 binds middle hmiddle).trans
        (hbody _ hinner.2 middle last hlast)
  | _ => cases hfound

theorem suits_sequenceParts {pattern : Atom} {s : Sequence Element}
    (hlaws : Element.Holds (DanglesIn scope) (Search.Suits q) (s.properties.specified.map (·.2)))
    (helements : Element.Holds (DanglesIn scope) (Search.Suits q) s.elements) :
    Holds (DanglesIn scope) (Search.Suits q) (sequenceParts pattern s) := by
  intro subject hsubject
  cases subject with
  | sequence subject mark =>
      have hparts := danglesIn_sequence_iff.mp hsubject
      exact Sequence.suits_matchUnder hlaws helements (danglesIn_of_effective hparts.1)
        (Wrapper.has_of_wrapped hparts.2 fun _ => danglesIn_run hparts.1 hparts.2)
  | _ => exact fun _ _ hfound => absurd hfound List.not_mem_nil

theorem suits_propertyParts {pattern : Atom} {laws : PropertySet Element}
    (hlaws : Element.Holds (DanglesIn scope) (Search.Suits q) (laws.specified.map (·.2))) :
    Holds (DanglesIn scope) (Search.Suits q) (propertyParts pattern laws) := by
  intro subject hsubject
  cases subject with
  | propertySet properties mark =>
      exact Sequence.suits_matchLaws hlaws
        (danglesIn_of_effective (danglesIn_propertySet_iff.mp hsubject))
  | _ => exact fun _ _ hfound => absurd hfound List.not_mem_nil

theorem suits_applicationParts {pattern : Atom} {head argument : Matcher}
    {arguments : Option (Sequence Element)} (hhead : head.Holds (DanglesIn scope) (Search.Suits q))
    (hargument : argument.Holds (DanglesIn scope) (Search.Suits q))
    (harguments : ∀ s, arguments = some s →
      Element.Holds (DanglesIn scope) (Search.Suits q) (s.properties.specified.map (·.2)) ∧
        Element.Holds (DanglesIn scope) (Search.Suits q) s.elements) :
    Holds (DanglesIn scope) (Search.Suits q)
      (applicationParts pattern head argument arguments) := by
  intro subject hsubject binds found hfound
  cases subject with
  | application subjectHead subjectArgument bound mark =>
      rw [danglesIn_application_iff] at hsubject
      rw [applicationParts, Traced.alternatives_continued, Traced.alternatives_mapFailure,
        List.mem_flatMap] at hfound
      rcases hfound with ⟨middle, hmiddle, hfound⟩
      refine (hhead _ hsubject.1 binds middle hmiddle).trans ?_
      split at hfound
      · rename_i elements s listMark
        have hboth := harguments elements rfl
        have hparts := danglesIn_sequence_iff.mp hsubject.2
        refine Sequence.suits_matchUnder hboth.1 hboth.2 (danglesIn_of_effective hparts.1)
          (Wrapper.has_of_wrapped hparts.2 fun run hrun => ?_) middle found hfound
        have hrun := danglesIn_run hparts.1 hparts.2 hrun
        split
        · rename_i hwrapper
          split at hwrapper <;> cases hwrapper
          exact hrun
        · rename_i hwrapper
          split at hwrapper <;> cases hwrapper
          exact danglesIn_application_iff.mpr ⟨hsubject.1, hrun⟩
      · exact hargument _ hsubject.2 middle found hfound
  | _ => cases hfound

end Matcher

/-!
## Patterns

The parameter of a lambda in a pattern takes the index of whatever it meets, so inside of the body
just that index may dangle in addition.
-/

namespace Atom

variable {evaluate : GuardEvaluator} {q : String → Atom → Prop}

theorem takes_of_mem_search {parameter subject : Atom} {binds found : Bindings}
    (hfound : found ∈ (search evaluate parameter subject binds).alternatives) :
    parameter.Takes subject.bindingIndex := by
  refine ⟨subject, rfl, fun hbound => ?_⟩
  cases parameter with
  | var name type guard index mark =>
      have hindex : (index != 0) = true := hbound
      rw [search_var, if_pos hindex] at hfound
      exact (mem_ofBound hfound).1
  | _ => cases hbound

theorem suits_anyType {p : Atom → Prop} : anyType.Holds p (Search.Suits q) :=
  suits_always

/-- Every variable that is met suits the atoms in which no more dangles than the lambdas around it
have taken. -/
def AllSuit (q : String → Atom → Prop) (place : List Atom × Bool) (pattern : Atom) : Prop :=
  ∀ visit ∈ pattern.visited scopedPart place, ∀ v ∈ visit.2.freeVariable, ∀ atom : Atom,
    atom.DanglesIn (TakenBy visit.1.1) → q v.1 atom

theorem AllSuit.part {place : List Atom × Bool} {pattern : Atom} (h : AllSuit q place pattern)
    (role : Role) {part : Atom} (hpart : (role, part) ∈ pattern.parts) {asHead : Bool}
    (hmeets : meetsPart place.2 pattern role = some asHead) :
    AllSuit q (inside place.1 pattern, asHead) part :=
  fun visit hvisit => h visit (visited_subset hpart (congrArg (Option.map _) hmeets) hvisit)

theorem AllSuit.elsewhere {around : List Atom} {pattern : Atom}
    (h : AllSuit q (around, true) pattern) : AllSuit q (around, false) pattern := by
  intro visit hvisit
  rcases mem_visited.mp hvisit with rfl | ⟨part, hpart, inner, hinner, hvisit⟩
  · exact h ((around, true), pattern) self_mem_visited
  · rcases Option.map_eq_some_iff.mp hinner with ⟨asHead, hmeets, rfl⟩
    exact h.part part.1 hpart (meetsPart_asHead hmeets) visit hvisit

section

variable {around : List Atom} {mark : Mark}

theorem AllSuit.var {name : String} {type : Atom} {guard : Option Atom}
    (h : AllSuit q (around, false) (var name type guard 0 mark)) :
    (∀ atom : Atom, atom.DanglesIn (TakenBy around) → q name atom) ∧
      AllSuit q (around, false) type :=
  ⟨h _ self_mem_visited (name, guard) List.mem_cons_self, h.part .type (by simp [parts]) rfl⟩

theorem AllSuit.lambda {parameter body : Atom}
    (h : AllSuit q (around, false) (lambda parameter body mark)) :
    AllSuit q (parameter :: around, false) parameter ∧
      AllSuit q (parameter :: around, false) body :=
  ⟨h.part .parameter (by simp [parts]) rfl, h.part .body (by simp [parts]) rfl⟩

theorem AllSuit.propertySet {properties : Properties}
    (h : AllSuit q (around, false) (propertySet properties mark)) {law : Law} {value : Atom}
    (hlaw : properties.get law = some value) : AllSuit q (around, false) value :=
  h.part .law (by simp [parts, PropertySet.mem_values.mpr ⟨law, hlaw⟩]) rfl

theorem AllSuit.sequence {s : Sequence Atom}
    (h : AllSuit q (around, false) (sequence s mark)) :
    (∀ law value, s.properties.get law = some value → AllSuit q (around, false) value) ∧
      ∀ atom ∈ s.elements, AllSuit q (around, false) atom :=
  ⟨fun law _ hlaw => h.part .law (by simp [parts, PropertySet.mem_values.mpr ⟨law, hlaw⟩]) rfl,
    fun _ hatom => h.part .element (by simp [parts, hatom]) rfl⟩

end

mutual

/-- A match of a pattern inside of lambdas, with a subject in which no more dangles than these have
taken, binds its variables to atoms that suit them. -/
theorem suits_search (around : List Atom) : ∀ pattern : Atom, AllSuit q (around, false) pattern →
    (search evaluate pattern).Holds (DanglesIn (TakenBy around)) (Search.Suits q)
  | typeUniverse _, _ => suits_ofLeaf _
  | root _ _, _ => by
      rw [search_root]
      split
      · exact suits_always
      · exact suits_ofLeaf _
  | literal _ _ _, _ => suits_ofLeaf _
  | operator _ _, _ => suits_ofLeaf _
  | var name type guard index mark, hvariables => by
      rw [search_var]
      split
      · rename_i hindex
        intro subject _ binds found hfound
        rw [(mem_ofBound hfound).2]
        exact .refl _
      · rename_i hindex
        have hindex : index = 0 := by simpa using hindex
        subst hindex
        exact suits_ofFree (suits_search around type hvariables.var.2) DanglesIn.type
          hvariables.var.1
  | lambda parameter body mark, hvariables => by
      rw [search_lambda]
      exact suits_ofStructure suits_anyType DanglesIn.type
        (suits_lambdaParts (suits_search (parameter :: around) parameter hvariables.lambda.1)
          takes_of_mem_search (suits_search (parameter :: around) body hvariables.lambda.2))
  | sequence ⟨properties, elements⟩ mark, hvariables => by
      rw [search_sequence]
      exact suits_ofStructure suits_anyType DanglesIn.type
        (suits_sequenceParts
          (holds_specified (suits_lawElements around properties hvariables.sequence.1))
          (suits_listElements around elements hvariables.sequence.2))
  | propertySet properties mark, hvariables => by
      rw [search_propertySet]
      exact suits_ofStructure suits_anyType DanglesIn.type
        (suits_propertyParts (holds_specified
          (suits_lawElements around properties fun _ _ => hvariables.propertySet)))
  | application head argument bound mark, hvariables => by
      have hhead : AllSuit q (around, true) head := hvariables.part .head (by simp [parts]) rfl
      have hargument : AllSuit q (around, false) argument :=
        hvariables.part .argument (by simp [parts]) rfl
      rw [search_application]
      exact suits_ofStructure (suits_headType around head hhead) DanglesIn.type
        (suits_applicationParts (suits_search around head hhead.elsewhere)
          (suits_search around argument hargument)
          (suits_argumentElements around argument hargument))

theorem suits_headType (around : List Atom) : ∀ head : Atom, AllSuit q (around, true) head →
    (headType evaluate head).Holds (DanglesIn (TakenBy around)) (Search.Suits q)
  | operator ⟨_, _, _, some result, _⟩ _, hvariables =>
      suits_search around result (hvariables.part .result (by simp [parts]) rfl)
  | operator ⟨_, _, _, none, _⟩ _, _ => suits_anyType
  | typeUniverse _, _ | root _ _, _ | literal _ _ _, _ | var _ _ _ _ _, _ | lambda _ _ _, _
  | sequence _ _, _ | propertySet _ _, _ | application _ _ _ _, _ => suits_anyType

theorem suits_argumentElements (around : List Atom) : ∀ argument : Atom,
    AllSuit q (around, false) argument →
      ∀ s, argumentElements evaluate argument = some s →
        Element.Holds (DanglesIn (TakenBy around)) (Search.Suits q)
            (s.properties.specified.map (·.2)) ∧
          Element.Holds (DanglesIn (TakenBy around)) (Search.Suits q) s.elements
  | sequence ⟨properties, elements⟩ _, hvariables, _, hs => by
      cases hs
      exact ⟨holds_specified (suits_lawElements around properties hvariables.sequence.1),
        suits_listElements around elements hvariables.sequence.2⟩
  | typeUniverse _, _, _, hs | root _ _, _, _, hs | literal _ _ _, _, _, hs
  | var _ _ _ _ _, _, _, hs | lambda _ _ _, _, _, hs | propertySet _ _, _, _, hs
  | operator _ _, _, _, hs | application _ _ _ _, _, _, hs => by cases hs

theorem suits_listElements (around : List Atom) : ∀ list : List Atom,
    (∀ atom ∈ list, AllSuit q (around, false) atom) →
      Element.Holds (DanglesIn (TakenBy around)) (Search.Suits q) (listElements evaluate list)
  | [], _ => List.forall_mem_nil _
  | atom :: rest, hvariables => by
      rw [List.forall_mem_cons] at hvariables
      rw [listElements_cons]
      exact List.forall_mem_cons.mpr
        ⟨suits_search around atom hvariables.1, suits_listElements around rest hvariables.2⟩

theorem suits_optionElement (around : List Atom) : ∀ value : Option Atom,
    (∀ atom, value = some atom → AllSuit q (around, false) atom) →
      ∀ element, optionElement evaluate value = some element →
        element.matcher.Holds (DanglesIn (TakenBy around)) (Search.Suits q)
  | none, _, _, helement => by cases helement
  | some atom, hvariables, element, helement => by
      rw [optionElement, Option.some_inj] at helement
      rw [← helement]
      exact suits_search around atom (hvariables atom rfl)

theorem suits_lawElements (around : List Atom) : ∀ properties : PropertySet Atom,
    (∀ law value, properties.get law = some value → AllSuit q (around, false) value) →
      ∀ law element, (lawElements evaluate properties).get law = some element →
        element.matcher.Holds (DanglesIn (TakenBy around)) (Search.Suits q)
  | ⟨a, c, i, b, d⟩, hvariables, law, element, helement => by
      cases law with
      | associative =>
          exact suits_optionElement around a (hvariables .associative) element helement
      | commutative =>
          exact suits_optionElement around c (hvariables .commutative) element helement
      | idempotent => exact suits_optionElement around i (hvariables .idempotent) element helement
      | absorber => exact suits_optionElement around b (hvariables .absorber) element helement
      | identity => exact suits_optionElement around d (hvariables .identity) element helement

end

end Atom

/-!
## What an engine binds
-/

namespace Engine

/-- Whatever a match with a closed subject binds dangles by no more than the lambdas of the pattern
around the name have taken. -/
theorem dangling_of_mem_tryMatch {engine : Engine} {pattern subject : Atom} {found : Bindings}
    (hclosed : subject.dangling = [])
    (hfound : found ∈ (engine.tryMatch pattern subject .empty).alternatives) {name : String}
    {atom : Atom} (hatom : found.find? name = some atom) :
    ∃ parameters, (name, parameters) ∈ pattern.scopedVariables [] ∧
      ∀ index ∈ atom.dangling, ∃ parameter ∈ parameters, parameter.Takes index := by
  let q : String → Atom → Prop := fun name atom =>
    ∃ parameters, (name, parameters) ∈ pattern.scopedVariables [] ∧
      atom.DanglesIn (TakenBy parameters)
  have hvariables : AllSuit q ([], false) pattern := fun visit hvisit v hv atom hatom =>
    ⟨visit.1.1, List.mem_flatMap.mpr ⟨visit, hvisit, List.mem_map_of_mem hv⟩, hatom⟩
  have hadds : NameMap.Adds q .empty found := suits_search [] pattern hvariables subject
    (danglesIn_takenBy_nil_iff.mpr hclosed) .empty found hfound
  refine (hadds name atom hatom).resolve_left fun hempty => ?_
  rw [NameMap.find?_empty] at hempty
  cases hempty

def openBody : Atom := .lambda (bound [] 1) (.free "y" .any) .new

theorem mem_tryMatch_openBody : NameMap.empty.insert "y" (bound [] 1) ∈
    (idle.tryMatch openBody (identity .new) .empty).alternatives := by
  have hfree : (Atom.free "y" .any).IsFree "y" := ⟨.any, .new, rfl, rfl⟩
  have hdiffers : (Atom.free "y" .any == bound [] 1) = false := by decide +kernel
  have hparameter : (search idle.evaluate (bound [] 1) (bound [] 1) .empty).alternatives =
      [.empty] := by
    rw [bound, search_var, if_pos (by decide), ofBound, if_pos (beq_refl _)]
    rfl
  have hbody : (search idle.evaluate (.free "y" .any) (bound [] 1) .empty).alternatives =
      [NameMap.empty.insert "y" (bound [] 1)] := by
    rw [alternatives_search_unbound hfree rfl, hdiffers]
    rfl
  have hparts : (search idle.evaluate openBody (identity .new) .empty).alternatives =
      [NameMap.empty.insert "y" (bound [] 1)] := by
    have hconstant : openBody.isConstant = false := by decide
    have hdepth : openBody.depth ≤ (identity .new).depth := by decide
    have htype : (anyType (identity .new).type .empty).alternatives = [.empty] := rfl
    rw [openBody] at hconstant hdepth ⊢
    rw [search_lambda, alternatives_ofStructure hconstant hdepth, htype, List.flatMap_singleton,
      identity, lambdaParts, Element.alternatives_matchAll_cons,
      Matcher.alternatives_watched, hparameter, List.flatMap_singleton,
      Element.alternatives_matchAll_cons, Matcher.alternatives_watched, hbody,
      List.flatMap_singleton]
    rfl
  rw [tryMatch, matchWith, Matcher.alternatives_watched, hparts]
  exact List.mem_singleton.mpr rfl

theorem dangling_of_mem_tryMatch_openBody : (identity .new).dangling = [] ∧
    NameMap.empty.insert "y" (bound [] 1) ∈
      (idle.tryMatch openBody (identity .new) .empty).alternatives ∧
    ∃ parameters, ("y", parameters) ∈ openBody.scopedVariables [] ∧
      ∀ index ∈ (bound [] 1).dangling, ∃ parameter ∈ parameters, parameter.Takes index :=
  ⟨by decide, mem_tryMatch_openBody, dangling_of_mem_tryMatch (by decide) mem_tryMatch_openBody rfl⟩

/-- The subject is closed and constant, and its parameter dangles in what is bound. -/
theorem dangling_not_closed : (identity .new).isConstant = true ∧ (identity .new).dangling = [] ∧
    ∃ found ∈ (idle.tryMatch openBody (identity .new) .empty).alternatives,
      ∃ atom, found.find? "y" = some atom ∧ atom.dangling = [1] :=
  ⟨rfl, by decide, _, mem_tryMatch_openBody, bound [] 1, rfl, by decide⟩

end Engine

end Equational
