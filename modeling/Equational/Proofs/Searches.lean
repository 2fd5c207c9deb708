import Equational.Matching.Term
import Equational.Proofs.Enumeration
import Equational.Proofs.Parts

/-!
# Induction over searches

A matcher that is given its subject is a search: it takes the bindings so far to
an outcome.  All searches are made of a few: to find the bindings as they are, to
fail, to bind a name, to go on with what was found, and to go through a list of
attempts.  A property of searches that these pass on holds for the search of
every pattern.  It may be made to depend on the subject, as far as subjects hand
it down to their parts, and on the names and the guards of the variables of the
pattern, which are what a match may bind.
-/

namespace Equational

open Atom

namespace Atom

/-!
## The variables of a pattern

A match goes into types, into elements and laws, into heads and arguments; it meets nothing but
parts of the pattern.
-/

/-- The parts that a match with an atom meets, each with whether it is met as the head of an
application.  A head is met in its result type as well, if it is an operator. -/
def meetsPart (asHead : Bool) (atom : Atom) (role : Role) : Option Bool :=
  match atom, role with
  | var _ _ _ index _, .type => if index = 0 then some false else none
  | operator .., .result => if asHead then some false else none
  | var .., _ | operator .., _ | literal .., _ => none
  | application .., .head => some true
  | _, _ => some false

def freeVariable : Atom → List (String × Option Atom)
  | var name _ guard index _ => if index = 0 then [(name, guard)] else []
  | _ => []

/-- The pattern variables that a match with an atom meets, each with its guard: those among its
parts, in the types of variables and in the result types of operators.  A guard is rewritten and
not matched; what is compared as a whole has none. -/
def patternVariables (atom : Atom) : List (String × Option Atom) :=
  (atom.visited meetsPart false).flatMap fun visit => visit.2.freeVariable

theorem meetsPart_asHead {atom : Atom} {role : Role} {inner : Bool}
    (h : meetsPart false atom role = some inner) : meetsPart true atom role = some inner := by
  cases atom with
  | operator op mark => cases role <;> cases h
  | _ => cases role <;> exact h

/-- A match with an atom, as a head or elsewhere, meets a pattern variable. -/
def MeetsAs (asHead : Bool) (atom v : Atom) : Prop :=
  v.isFreeVar = true ∧ ∃ place, (place, v) ∈ atom.visited meetsPart asHead

abbrev Meets : Atom → Atom → Prop := MeetsAs false

variable {v : Atom} {mark : Mark}

theorem MeetsAs.part {asHead inner : Bool} {atom : Atom} (role : Role) (part : Atom)
    (hpart : (role, part) ∈ atom.parts) (hinner : meetsPart asHead atom role = some inner)
    (h : part.MeetsAs inner v) : atom.MeetsAs asHead v :=
  h.imp id (Exists.imp fun _ hvisit => visited_subset hpart hinner hvisit)

theorem Meets.self {name : String} {type : Atom} {guard : Option Atom} :
    (var name type guard 0 mark).Meets (var name type guard 0 mark) :=
  ⟨rfl, false, self_mem_visited⟩

theorem Meets.type {name : String} {type : Atom} {guard : Option Atom} (h : type.Meets v) :
    (var name type guard 0 mark).Meets v :=
  h.part .type type (by simp [parts]) rfl

theorem Meets.parameter {parameter body : Atom} (h : parameter.Meets v) :
    (lambda parameter body mark).Meets v :=
  h.part .parameter parameter (by simp [parts]) rfl

theorem Meets.body {parameter body : Atom} (h : body.Meets v) :
    (lambda parameter body mark).Meets v :=
  h.part .body body (by simp [parts]) rfl

theorem Meets.sequenceLaw {s : Sequence Atom} {law : Law} {value : Atom}
    (hlaw : s.properties.get law = some value) (h : value.Meets v) :
    (sequence s mark).Meets v :=
  h.part .law value (by simp [parts, PropertySet.mem_values.mpr ⟨law, hlaw⟩]) rfl

theorem Meets.element {s : Sequence Atom} {atom : Atom} (hatom : atom ∈ s.elements)
    (h : atom.Meets v) : (sequence s mark).Meets v :=
  h.part .element atom (by simp [parts, hatom]) rfl

theorem Meets.law {properties : Properties} {law : Law} {value : Atom}
    (hlaw : properties.get law = some value) (h : value.Meets v) :
    (propertySet properties mark).Meets v :=
  h.part .law value (by simp [parts, PropertySet.mem_values.mpr ⟨law, hlaw⟩]) rfl

theorem Meets.argument {head argument : Atom} {bound : Bindings} (h : argument.Meets v) :
    (application head argument bound mark).Meets v :=
  h.part .argument argument (by simp [parts]) rfl

theorem Meets.asHead {atom : Atom} (h : atom.Meets v) : atom.MeetsAs true v := by
  rcases h with ⟨hfree, place, hvisit⟩
  rcases mem_visited.mp hvisit with heq | ⟨part, hpart, inner, hinner, hvisit⟩
  · cases heq
    exact ⟨hfree, true, self_mem_visited⟩
  · exact ⟨hfree, place, visited_subset hpart (meetsPart_asHead hinner) hvisit⟩

theorem Meets.head {head argument : Atom} {bound : Bindings} (h : head.Meets v) :
    (application head argument bound mark).Meets v :=
  h.asHead.part .head head (by simp [parts]) rfl

theorem Meets.result {op : Operator Atom} {argument result : Atom} {bound : Bindings}
    {operatorMark : Mark} (hresult : op.resultType = some result) (h : result.Meets v) :
    (application (operator op operatorMark) argument bound mark).Meets v := by
  have hhead : (operator op operatorMark).MeetsAs true v :=
    h.part .result result (by simp [parts, hresult]) rfl
  exact hhead.part .head _ (by simp [parts]) rfl

theorem meets_var_iff {name : String} {type : Atom} {guard : Option Atom} :
    (var name type guard 0 mark).Meets v ↔ v = var name type guard 0 mark ∨ type.Meets v := by
  constructor
  · rintro ⟨hfree, place, hvisit⟩
    rcases mem_visited.mp hvisit with heq | ⟨part, hpart, inner, hinner, hvisit⟩
    · exact .inl (Prod.mk.inj heq).2
    · rcases List.mem_cons.mp hpart with rfl | hguard
      · cases hinner
        exact .inr ⟨hfree, place, hvisit⟩
      · rcases List.mem_map.mp hguard with ⟨atom, -, rfl⟩
        cases hinner
  · rintro (rfl | h)
    · exact .self
    · exact h.type

theorem not_meets_any : ¬any.Meets v := by
  rintro ⟨hfree, place, hvisit⟩
  cases List.mem_singleton.mp hvisit
  cases hfree

theorem Meets.exists_var {pattern : Atom} (h : pattern.Meets v) :
    ∃ name type guard mark, v = var name type guard 0 mark := by
  cases v with
  | var name type guard index mark =>
      have hindex : index = 0 := beq_iff_eq.mp h.1
      exact ⟨name, type, guard, mark, by rw [hindex]⟩
  | _ => cases h.1

theorem Meets.everywhere {p : Atom → Prop} {pattern : Atom} (h : pattern.Meets v)
    (hpattern : pattern.Everywhere p) : v.Everywhere p :=
  have ⟨_, hvisit⟩ := h.2
  hpattern.of_mem_visited hvisit

theorem patternVariables_var {name : String} {type : Atom} {guard : Option Atom} {index : UInt64}
    (hfree : (var name type guard index mark).isFreeVar = true) :
    (var name type guard index mark).patternVariables = (name, guard) :: type.patternVariables := by
  have hindex : index = 0 := beq_iff_eq.mp hfree
  rw [patternVariables, visited_eq, List.flatMap_cons, parts, List.flatMap_cons, List.flatMap_map]
  have hrest : (guard.toList.flatMap fun _ : Atom => ([] : List (Bool × Atom))) = [] := by simp
  simp only [meetsPart, hindex, if_true, Option.elim]
  rw [hrest, List.append_nil]
  rfl

theorem Meets.mem_patternVariables {pattern : Atom} (h : pattern.Meets v) {name : String}
    {type : Atom} {guard : Option Atom} {mark : Mark} (hv : v = var name type guard 0 mark) :
    (name, guard) ∈ patternVariables pattern := by
  rcases h with ⟨-, place, hvisit⟩
  subst hv
  exact List.mem_flatMap.mpr ⟨_, hvisit, List.mem_cons_self⟩

end Atom

/-!
## Conditions on subjects

Such a condition holds for whatever a match meets in the subject, if it holds for the subject.
-/

/-- A condition that atoms pass on to their parts, and to the sequences and applications that runs
of elements are wrapped up in. -/
structure Inherited (p : Atom → Prop) : Prop where
  type {atom : Atom} : p atom → p atom.type
  lambda {parameter body : Atom} {mark : Mark} :
    p (.lambda parameter body mark) → p parameter ∧ p body
  law {properties : Properties} {mark : Mark} {law : Law} {value : Atom} :
    p (.propertySet properties mark) → properties.effective? law = some value → p value
  sequence {s : Sequence Atom} {mark : Mark} : p (.sequence s mark) →
    p (.propertySet s.properties .new) ∧ ∀ atom ∈ s.elements, p atom
  application {head argument : Atom} {bound : Bindings} {mark : Mark} :
    p (.application head argument bound mark) → p head ∧ p argument
  run {s : Sequence Atom} {mark : Mark} {run : List Atom} : p (.sequence s mark) →
    run.Subperm s.elements → p (.sequence (.ofList s.properties run) .new)
  applied {head : Atom} {s : Sequence Atom} {listMark mark : Mark} {bound : Bindings}
    {run : List Atom} : p (.application head (.sequence s listMark) bound mark) →
    run.Subperm s.elements →
      p (.application head (.sequence (.ofList s.properties run) .new) .empty .new)

theorem Inherited.and {p q : Atom → Prop} (hp : Inherited p) (hq : Inherited q) :
    Inherited fun atom => p atom ∧ q atom where
  type h := ⟨hp.type h.1, hq.type h.2⟩
  lambda h := ⟨⟨(hp.lambda h.1).1, (hq.lambda h.2).1⟩, (hp.lambda h.1).2, (hq.lambda h.2).2⟩
  law h hvalue := ⟨hp.law h.1 hvalue, hq.law h.2 hvalue⟩
  sequence h := ⟨⟨(hp.sequence h.1).1, (hq.sequence h.2).1⟩,
    fun atom hatom => ⟨(hp.sequence h.1).2 atom hatom, (hq.sequence h.2).2 atom hatom⟩⟩
  application h :=
    ⟨⟨(hp.application h.1).1, (hq.application h.2).1⟩, (hp.application h.1).2,
      (hq.application h.2).2⟩
  run h hsub := ⟨hp.run h.1 hsub, hq.run h.2 hsub⟩
  applied h hsub := ⟨hp.applied h.1 hsub, hq.applied h.2 hsub⟩

theorem inherited_true : Inherited fun _ => True where
  type _ := trivial
  lambda _ := ⟨trivial, trivial⟩
  law _ _ := trivial
  sequence _ := ⟨trivial, fun _ _ => trivial⟩
  application _ := ⟨trivial, trivial⟩
  run _ _ := trivial
  applied _ _ := trivial

/-!
## Parts of subjects

What is left after elimination is part of the list, and a run of one element is wrapped up as that
element.
-/

namespace Element

theorem mem_of_mem_arrange {subjects : List Atom} {order : List Nat} {atom : Atom}
    (h : atom ∈ arrange subjects order) : atom ∈ subjects := by
  rcases List.mem_filterMap.mp h with ⟨position, -, hatom⟩
  exact List.mem_of_getElem? hatom

theorem sublist_of_mem_cut {α : Type} {marks : List Nat} {position : Nat} {list run : List α}
    (hrun : run ∈ Grouping.cut position marks list) : run.Sublist list := by
  induction marks generalizing position list with
  | nil =>
      rw [Grouping.cut, List.mem_singleton] at hrun
      rw [hrun]
  | cons mark rest ih =>
      rw [Grouping.cut, List.mem_cons] at hrun
      rcases hrun with rfl | hrun
      · exact List.take_sublist _ _
      · exact (ih hrun).trans (List.drop_sublist _ _)

end Element

namespace Sequence

theorem remaining_sublist {α : Type} (taken : List Nat) (list : List α) :
    (Elimination.remaining taken list).Sublist list := by
  have hzip : (list.zipIdx.map (·.1)) = list := by simp
  have hfilter := (List.filter_sublist (p := fun entry => !taken.contains entry.2)
    (l := list.zipIdx)).map (·.1)
  rwa [hzip] at hfilter

theorem mem_of_mem_remaining {α : Type} {taken : List Nat} {list : List α} {a : α}
    (h : a ∈ Elimination.remaining taken list) : a ∈ list :=
  (remaining_sublist taken list).subset h

theorem sublist_of_eliminateConstants {patterns left : List Element} {subjects : Sequence Atom}
    {atoms : List Atom} (h : (eliminateConstants patterns subjects).value = .ok (left, atoms)) :
    left.Sublist patterns ∧ atoms.Sublist subjects.elements := by
  unfold eliminateConstants at h
  simp only at h
  split at h
  · simp only [Traced.of, Except.ok.injEq, Prod.mk.injEq] at h
    rw [← h.1, ← h.2]
    exact ⟨remaining_sublist _ _, remaining_sublist _ _⟩
  · split at h
    · cases h
    · cases h

theorem events_eliminateConstants (patterns : List Element) (subjects : Sequence Atom) :
    ∃ notices : List Notice,
      (eliminateConstants patterns subjects).events = notices.map .notice := by
  unfold eliminateConstants
  simp only
  split
  · exact ⟨[], rfl⟩
  · split
    · exact ⟨[_], rfl⟩
    · exact ⟨[], rfl⟩

end Sequence

namespace PropertySet

theorem get_or_false_of_effective {properties : Properties} {law : Law} {value : Atom}
    (h : properties.effective? law = some value) :
    properties.get law = some value ∨ value = .boolean false := by
  unfold effective? at h
  split at h
  · rename_i atom hget
    cases h
    exact Or.inl hget
  · split at h
    · cases h
      exact Or.inr rfl
    · cases h

theorem mem_effectives {subject : Properties} {laws : List (Law × Element)} {values : List Atom}
    (h : effectives subject laws = .ok values) :
    ∀ value ∈ values, ∃ law, subject.effective? law = some value := by
  induction laws generalizing values with
  | nil =>
      cases h
      exact List.forall_mem_nil _
  | cons first rest ih =>
      rcases first with ⟨law, element⟩
      unfold effectives at h
      cases hvalue : subject.effective? law with
      | none =>
          rw [hvalue] at h
          cases h
      | some value =>
          rw [hvalue] at h
          cases hrest : effectives subject rest with
          | error failure =>
              rw [hrest] at h
              cases h
          | ok others =>
              rw [hrest] at h
              cases h
              exact List.forall_mem_cons.mpr ⟨⟨law, hvalue⟩, ih hrest⟩

end PropertySet

/-- What a wrapper makes of runs of a list satisfies the condition. -/
def Wrapper.Has (p : Atom → Prop) (wrapper : Wrapper) (list : List Atom) : Prop :=
  ∀ run : List Atom, run.Subperm list → p (wrapper.wrap run)

section

variable {p : Atom → Prop} {wrapper : Wrapper} {list : List Atom}

theorem Wrapper.Has.mono (h : wrapper.Has p list) {part : List Atom} (hpart : part.Subperm list) :
    wrapper.Has p part :=
  fun run hrun => h run (hrun.trans hpart)

theorem Wrapper.Has.forall_mem (h : wrapper.Has p list) : ∀ atom ∈ list, p atom :=
  fun atom hatom => h [atom] (List.singleton_subperm_iff.mpr hatom)

theorem Wrapper.has_of_wrapped (hlist : ∀ atom ∈ list, p atom)
    (h : ∀ run : List Atom, run.Subperm list → match wrapper with
      | .sequence properties => p (.sequence (.ofList properties run) .new)
      | .application head properties =>
        p (.application head (.sequence (.ofList properties run) .new) .empty .new)) :
    wrapper.Has p list := by
  intro run hrun
  unfold Wrapper.wrap
  split
  · exact hlist _ (hrun.subset List.mem_cons_self)
  · cases wrapper with
    | sequence properties => exact h run hrun
    | application head properties => exact h run hrun

end

/-!
## Properties of searches
-/

/-- What is done under bindings that are still to be found. -/
abbrev Search := Bindings → Traced Outcome

/-- A property of searches, with one of the streams that they go through, that all ways of putting
searches together pass on.  The subjects that are met satisfy a condition. -/
structure Search.Closed (p : Atom → Prop) (property : Search → Prop)
    (streams : (Bindings → Stream) → Prop) : Prop where
  inherited : Inherited p
  found : property fun binds => .of (.found binds)
  failed (failure : Failure) : property fun _ => .of (.failed failure)
  watched {pattern subject : Atom} {search : Matcher} : property (search subject) →
    property (Matcher.watched pattern search subject)
  mapFailure {search : Search} (f : Failure → Failure) : property search →
    property fun binds => (search binds).mapFailure f
  continued {search next : Search} : property search → property next →
    property fun binds => (search binds).continued next
  noticed {search : Search} (notices : List Notice) : property search →
    property fun binds => Traced.andThen ⟨notices.map .notice, ()⟩ fun _ => search binds
  firstOf {alternatives : Bindings → Stream} (onEmpty : Failure) : streams alternatives →
    property fun binds => Outcome.firstOf onEmpty (alternatives binds)
  all {search : Search} (notice : Bindings → Notice) : property search →
    streams fun binds => Stream.noticed (search binds).stream notice
  flatMap {α : Type} {list : LazyList α} {f : α → Bindings → Stream} :
    (∀ a ∈ list.toList, streams (f a)) → streams fun binds => list.flatMap fun a => f a binds

/-- The property is also one of what is done with a pattern variable whose name and guard satisfy a
condition: its name is looked up if it meets itself, and else it is bound. -/
structure Search.ClosedUnderBinding (evaluate : GuardEvaluator)
    (condition : String → Option Atom → Prop) (p : Atom → Prop) (property : Search → Prop)
    (streams : (Bindings → Stream) → Prop) : Prop extends Search.Closed p property streams where
  known {pattern subject : Atom} {name : String} {guard : Option Atom} : condition name guard →
    property fun binds =>
      match binds.find? name with
      | some existing =>
        if existing == subject then .of (.found binds)
        else Matcher.failBetween (.alreadyBound name existing) pattern subject
      | none => .of (.found binds)
  bind {pattern subject : Atom} {name : String} {guard : Option Atom} : condition name guard →
    p subject → property (Matcher.bind evaluate pattern name guard subject)

section

variable {p : Atom → Prop} {property : Search → Prop} {streams : (Bindings → Stream) → Prop}
  (h : Search.Closed p property streams)

include h

namespace Matcher

def Holds (p : Atom → Prop) (property : Search → Prop) (matcher : Matcher) : Prop :=
  ∀ subject, p subject → property (matcher subject)

theorem holds_always : Holds p property always := fun _ _ => h.found

theorem holds_watched {pattern : Atom} {search : Matcher} (hsearch : search.Holds p property) :
    Holds p property (watched pattern search) :=
  fun subject hsubject => h.watched (hsearch subject hsubject)

theorem holds_watched_always (pattern : Atom) : Holds p property (watched pattern always) :=
  holds_watched h (holds_always h)

theorem holds_ofBound (pattern : Atom) : Holds p property (ofBound pattern) := by
  intro subject _
  -- how the search goes on is decided before the bindings are known
  change property fun binds => ofBound pattern subject binds
  unfold ofBound
  split
  · exact h.found
  · exact h.failed _

theorem holds_ofLeaf (pattern : Atom) : Holds p property (ofLeaf pattern) := by
  intro subject _
  change property fun binds => ofLeaf pattern subject binds
  unfold ofLeaf
  split
  · exact h.found
  · exact h.failed _

theorem holds_ofStructure {pattern : Atom} {type parts : Matcher}
    (htype : type.Holds p property) (hparts : parts.Holds p property) :
    Holds p property (ofStructure pattern type parts) := by
  intro subject hsubject
  have hrest : property fun binds =>
      if subject.depth < pattern.depth then failBetween .patternDeeper pattern subject
      else ((type subject.type binds).mapFailure fun failure =>
          (Failure.between .typesDiffer pattern subject).causedBy failure)
        |>.continued fun binds => parts subject binds := by
    split
    · exact h.failed _
    · exact h.continued (h.mapFailure _ (htype _ (h.inherited.type hsubject)))
        (hparts subject hsubject)
  change property fun binds => ofStructure pattern type parts subject binds
  unfold ofStructure
  simp only
  split
  · split
    · exact h.found
    · split
      · exact hrest
      · exact h.failed _
  · exact hrest

end Matcher

/-!
## Lists of elements

The elements are matched one after the other, by induction on them; so are the laws.  Constants
are eliminated without regard to bindings.
-/

namespace Element

def Holds (p : Atom → Prop) (property : Search → Prop) (elements : List Element) : Prop :=
  ∀ element ∈ elements, element.matcher.Holds p property

variable {elements : List Element} {subjects : List Atom}

theorem holds_matchFrom (helements : Holds p property elements)
    (hsubjects : ∀ atom ∈ subjects, p atom) (index : Nat) :
    property (matchFrom index elements subjects) := by
  induction elements generalizing subjects index with
  | nil => exact h.found
  | cons element rest ih =>
      cases subjects with
      | nil => exact h.found
      | cons subject subjects =>
          have hparts := List.forall_mem_cons.mp helements
          have hatoms := List.forall_mem_cons.mp hsubjects
          exact h.continued (h.mapFailure _ (hparts.1 subject hatoms.1))
            (ih hparts.2 hatoms.2 (index + 1))

theorem holds_matchAll (helements : Holds p property elements)
    (hsubjects : ∀ atom ∈ subjects, p atom) : property (matchAll elements subjects) := by
  change property fun binds => matchAll elements subjects binds
  unfold matchAll
  split
  · exact holds_matchFrom h helements hsubjects 0
  · exact h.failed _

theorem holds_matchOrders (helements : Holds p property elements)
    (hsubjects : ∀ atom ∈ subjects, p atom) : streams (matchOrders elements subjects) :=
  h.flatMap fun _ _ => h.all _ (holds_matchAll h helements fun atom hatom =>
    hsubjects atom (mem_of_mem_arrange hatom))

end Element

theorem Element.holds_matchGroupings {wrapper : Wrapper} {elements : List Element}
    (helements : Holds p property elements) {subjects : List Atom}
    (hwrapper : wrapper.Has p subjects) : streams (matchGroupings wrapper elements subjects) := by
  refine h.flatMap fun runs hruns => h.all _ (holds_matchAll h helements ?_)
  rw [Grouping.groupings, LazyList.toList_map, List.mem_map] at hruns
  rcases hruns with ⟨marks, -, rfl⟩
  exact List.forall_mem_map.mpr fun run hrun => hwrapper run (sublist_of_mem_cut hrun).subperm

namespace Sequence

variable {wrapper : Wrapper} {elements : List Element}

/-- Constants are eliminated without regard to bindings, and what is left are some of the elements
and some of the subjects. -/
theorem holds_afterElimination (helements : Element.Holds p property elements)
    {subjects : Sequence Atom} {next : List Element → List Atom → Search}
    (hnext : ∀ left atoms, Element.Holds p property left → atoms.Sublist subjects.elements →
      property (next left atoms)) :
    property fun binds => (eliminateConstants elements subjects).andThen fun left =>
      match left with
      | .error failure => .of (.failed failure)
      | .ok (left, atoms) => next left atoms binds := by
  rcases events_eliminateConstants elements subjects with ⟨notices, hnotices⟩
  cases hvalue : (eliminateConstants elements subjects).value with
  | error failure =>
      have hfailed := h.noticed notices (h.failed failure)
      rw [← hnotices] at hfailed
      simp only [Traced.andThen, hvalue]
      exact hfailed
  | ok left =>
      rcases left with ⟨left, atoms⟩
      have hsublist := sublist_of_eliminateConstants hvalue
      have hleft := h.noticed notices (hnext left atoms
        (fun element helement => helements element (hsublist.1.subset helement)) hsublist.2)
      rw [← hnotices] at hleft
      simp only [Traced.andThen, hvalue]
      exact hleft

theorem holds_matchCommutative
    (helements : Element.Holds p property elements) {subjects : Sequence Atom}
    (hsubjects : ∀ atom ∈ subjects.elements, p atom) :
    property (matchCommutative elements subjects) := by
  change property fun binds => matchCommutative elements subjects binds
  unfold matchCommutative
  split
  · exact holds_afterElimination h helements fun left atoms hleft hatoms =>
      h.firstOf _ (Element.holds_matchOrders h hleft fun atom hatom =>
        hsubjects atom (hatoms.subset hatom))
  · exact h.failed _

theorem holds_matchAssociative (helements : Element.Holds p property elements)
    {subjects : Sequence Atom} (hwrapper : wrapper.Has p subjects.elements) :
    property (matchAssociative wrapper elements subjects) := by
  change property fun binds => matchAssociative wrapper elements subjects binds
  unfold matchAssociative
  simp only
  split
  · exact Element.holds_matchAll h helements hwrapper.forall_mem
  · split
    · exact h.failed _
    · exact h.firstOf _ (Element.holds_matchGroupings h helements hwrapper)

theorem holds_matchArrangements (helements : Element.Holds p property elements)
    {subjects : List Atom} (hwrapper : wrapper.Has p subjects) :
    property (matchArrangements wrapper elements subjects) := by
  change property fun binds => matchArrangements wrapper elements subjects binds
  unfold matchArrangements
  simp only
  split
  · split
    · exact h.found
    · exact h.failed _
  · split
    · exact h.failed _
    · split
      · exact h.firstOf _ (Element.holds_matchOrders h helements hwrapper.forall_mem)
      · exact h.firstOf _ (h.flatMap fun order horder =>
          Element.holds_matchGroupings h helements (hwrapper.mono
            (Element.arrange_perm (Permutation.mem_orders_iff.mp horder)).subperm))

theorem holds_matchElements (helements : Element.Holds p property elements)
    {subjects : Sequence Atom} (hwrapper : wrapper.Has p subjects.elements) :
    property (matchElements wrapper elements subjects) := by
  change property fun binds => matchElements wrapper elements subjects binds
  unfold matchElements
  simp only
  split
  · split
    · exact holds_matchCommutative h helements hwrapper.forall_mem
    · exact Element.holds_matchAll h helements hwrapper.forall_mem
  · split
    · split
      · exact holds_afterElimination h helements fun left atoms hleft hatoms =>
          holds_matchArrangements h hleft (hwrapper.mono hatoms.subperm)
      · exact holds_matchAssociative h helements hwrapper
    · exact h.failed _

theorem holds_matchLaws {pattern : PropertySet Element}
    (hlaws : Element.Holds p property (pattern.specified.map (·.2))) {subject : Properties}
    {mark : Mark} (hsubject : p (.propertySet subject mark)) :
    property (pattern.matchLaws subject) := by
  change property fun binds => pattern.matchLaws subject binds
  unfold PropertySet.matchLaws
  cases hvalues : PropertySet.effectives subject pattern.specified with
  | error failure => exact h.failed _
  | ok values =>
      refine Element.holds_matchAll h hlaws fun value hvalue => ?_
      rcases PropertySet.mem_effectives hvalues value hvalue with ⟨law, hlaw⟩
      exact h.inherited.law hsubject hlaw

theorem holds_matchUnder {pattern : Sequence Element}
    (hlaws : Element.Holds p property (pattern.properties.specified.map (·.2)))
    (helements : Element.Holds p property pattern.elements) {subject : Sequence Atom} {mark : Mark}
    (hsubject : p (.propertySet subject.properties mark))
    (hwrapper : wrapper.Has p subject.elements) : property (matchUnder wrapper pattern subject) :=
  h.continued (h.mapFailure _ (holds_matchLaws h hlaws hsubject))
    (holds_matchElements h helements hwrapper)

end Sequence

/-!
## Parts of atoms
-/

namespace Matcher

theorem holds_lambdaParts {pattern : Atom} {parameter body : Element}
    (hparameter : parameter.matcher.Holds p property)
    (hbody : body.matcher.Holds p property) :
    Holds p property (lambdaParts pattern parameter body) := by
  intro subject hsubject
  cases subject with
  | lambda subjectParameter subjectBody mark =>
      have hparts := h.inherited.lambda hsubject
      exact Element.holds_matchAll h
        (List.forall_mem_cons.mpr ⟨hparameter, List.forall_mem_singleton.mpr hbody⟩)
        (List.forall_mem_cons.mpr ⟨hparts.1, List.forall_mem_singleton.mpr hparts.2⟩)
  | _ => exact h.failed _

theorem holds_sequenceParts {pattern : Atom} {s : Sequence Element}
    (hlaws : Element.Holds p property (s.properties.specified.map (·.2)))
    (helements : Element.Holds p property s.elements) :
    Holds p property (sequenceParts pattern s) := by
  intro subject hsubject
  cases subject with
  | sequence subject mark =>
      have hparts := h.inherited.sequence hsubject
      exact Sequence.holds_matchUnder h hlaws helements hparts.1
        (Wrapper.has_of_wrapped hparts.2 fun _ hrun => h.inherited.run hsubject hrun)
  | _ => exact h.failed _

theorem holds_propertyParts {pattern : Atom} {laws : PropertySet Element}
    (hlaws : Element.Holds p property (laws.specified.map (·.2))) :
    Holds p property (propertyParts pattern laws) := by
  intro subject hsubject
  cases subject with
  | propertySet properties mark => exact Sequence.holds_matchLaws h hlaws hsubject
  | _ => exact h.failed _

theorem holds_applicationParts {pattern : Atom} {head argument : Matcher}
    {arguments : Option (Sequence Element)} (hhead : head.Holds p property)
    (hargument : argument.Holds p property)
    (harguments : ∀ s, arguments = some s →
      Element.Holds p property (s.properties.specified.map (·.2)) ∧
        Element.Holds p property s.elements) :
    Holds p property (applicationParts pattern head argument arguments) := by
  intro subject hsubject
  cases subject with
  | application subjectHead subjectArgument bound mark =>
      have hparts := h.inherited.application hsubject
      refine h.continued (h.mapFailure _ (hhead _ hparts.1)) ?_
      split
      · have hboth := harguments _ rfl
        have hlist := h.inherited.sequence hparts.2
        refine Sequence.holds_matchUnder h hboth.1 hboth.2 hlist.1 ?_
        split
        · exact Wrapper.has_of_wrapped hlist.2 fun _ hrun => h.inherited.applied hsubject hrun
        · exact Wrapper.has_of_wrapped hlist.2 fun _ hrun => h.inherited.run hparts.2 hrun
      · exact hargument _ hparts.2
  | _ => exact h.failed _

end Matcher

end

/-!
## Patterns

By induction over the pattern: where its variables are looked up or bound, the property is one of
the variable, and everything else is put together of such searches.
-/

variable {evaluate : GuardEvaluator} {condition : String → Option Atom → Prop} {p : Atom → Prop}
  {property : Search → Prop} {streams : (Bindings → Stream) → Prop}

/-- The property holds for the searches of an atom that is a pattern variable, if it does for those
of the type. -/
def Atom.HoldsFree (evaluate : GuardEvaluator) (p : Atom → Prop) (property : Search → Prop)
    (v : Atom) : Prop :=
  ∀ name type guard mark, v = .var name type guard 0 mark → ∀ matcher : Matcher,
    matcher.Holds p property → (Matcher.ofFree evaluate v name guard matcher).Holds p property

namespace Atom

open Matcher

theorem holds_specified {laws : PropertySet Element}
    (hlaws : ∀ law element, laws.get law = some element → element.matcher.Holds p property) :
    Element.Holds p property (laws.specified.map (·.2)) := by
  intro element hmem
  rcases List.mem_map.mp hmem with ⟨entry, hentry, rfl⟩
  rcases List.mem_filterMap.mp hentry with ⟨law, -, hlaw⟩
  rcases Option.map_eq_some_iff.mp hlaw with ⟨found, hget, rfl⟩
  exact hlaws law found hget

mutual

/-- The search of a pattern has every property that all ways of putting searches together pass on,
if the searches of the pattern variables that it meets have it. -/
theorem holds_search_of_meets (h : Search.Closed p property streams) :
    ∀ pattern : Atom, (∀ v, pattern.Meets v → v.HoldsFree evaluate p property) →
      (search evaluate pattern).Holds p property
  | typeUniverse _, _ => by
      rw [search_typeUniverse]
      exact holds_ofLeaf h _
  | root _ _, _ => by
      rw [search_root]
      split
      · exact holds_always h
      · exact holds_ofLeaf h _
  | literal _ _ _, _ => by
      rw [search_literal]
      exact holds_ofLeaf h _
  | operator _ _, _ => by
      rw [search_operator]
      exact holds_ofLeaf h _
  | var name type guard index mark, hfree => by
      rw [search_var]
      split
      · exact holds_ofBound h _
      · rename_i hindex
        have hzero : index = 0 := by simpa using hindex
        subst hzero
        exact hfree _ .self name type guard mark rfl _
          (holds_watched h (holds_search_of_meets h type fun v hv => hfree v (.type hv)))
  | lambda parameter body _, hfree => by
      rw [search_lambda]
      exact holds_ofStructure h (holds_watched_always h _)
        (holds_lambdaParts h
          (holds_watched h (holds_search_of_meets h parameter fun v hv => hfree v (.parameter hv)))
          (holds_watched h (holds_search_of_meets h body fun v hv => hfree v (.body hv))))
  | sequence ⟨properties, elements⟩ _, hfree => by
      rw [search_sequence]
      exact holds_ofStructure h (holds_watched_always h _)
        (holds_sequenceParts h
          (holds_specified (holds_lawElements_of_meets h properties
            fun law value hlaw v hv => hfree v (.sequenceLaw hlaw hv)))
          (holds_listElements_of_meets h elements
            fun atom hatom v hv => hfree v (.element hatom hv)))
  | propertySet properties _, hfree => by
      rw [search_propertySet]
      exact holds_ofStructure h (holds_watched_always h _)
        (holds_propertyParts h (holds_specified (holds_lawElements_of_meets h properties
          fun law value hlaw v hv => hfree v (.law hlaw hv))))
  | application head argument bound _, hfree => by
      rw [search_application]
      exact holds_ofStructure h
        (holds_headType h head fun op mark result hhead hresult v hv =>
          hfree v (by rw [hhead]; exact .result hresult hv))
        (holds_applicationParts h
          (holds_watched h (holds_search_of_meets h head fun v hv => hfree v (.head hv)))
          (holds_watched h (holds_search_of_meets h argument fun v hv => hfree v (.argument hv)))
          (holds_argumentElements h argument fun v hv => hfree v (.argument hv)))

theorem holds_headType (h : Search.Closed p property streams) :
    ∀ head : Atom, (∀ op mark result, head = operator op mark →
      op.resultType = some result → ∀ v, result.Meets v → v.HoldsFree evaluate p property) →
      (headType evaluate head).Holds p property
  | operator ⟨_, _, _, some result, _⟩ mark, hfree =>
      holds_watched h (holds_search_of_meets h result (hfree _ mark result rfl rfl))
  | operator ⟨_, _, _, none, _⟩ _, _ => holds_watched_always h _
  | typeUniverse _, _ | root _ _, _ | literal _ _ _, _ | var _ _ _ _ _, _ | lambda _ _ _, _
  | sequence _ _, _ | propertySet _ _, _ | application _ _ _ _, _ =>
      holds_watched_always h _

theorem holds_argumentElements (h : Search.Closed p property streams) :
    ∀ argument : Atom, (∀ v, argument.Meets v → v.HoldsFree evaluate p property) →
      ∀ s, argumentElements evaluate argument = some s →
        Element.Holds p property (s.properties.specified.map (·.2)) ∧
          Element.Holds p property s.elements
  | sequence ⟨properties, elements⟩ _, hfree, _, hs => by
      cases hs
      exact ⟨holds_specified (holds_lawElements_of_meets h properties
          fun law value hlaw v hv => hfree v (.sequenceLaw hlaw hv)),
        holds_listElements_of_meets h elements fun atom hatom v hv => hfree v (.element hatom hv)⟩
  | typeUniverse _, _, _, hs | root _ _, _, _, hs | literal _ _ _, _, _, hs
  | var _ _ _ _ _, _, _, hs | lambda _ _ _, _, _, hs | propertySet _ _, _, _, hs
  | operator _ _, _, _, hs | application _ _ _ _, _, _, hs => by cases hs

theorem holds_listElements_of_meets (h : Search.Closed p property streams) : ∀ list : List Atom,
    (∀ atom ∈ list, ∀ v, atom.Meets v → v.HoldsFree evaluate p property) →
      Element.Holds p property (listElements evaluate list)
  | [], _ => List.forall_mem_nil _
  | atom :: rest, hfree => by
      have hparts := List.forall_mem_cons.mp hfree
      rw [listElements_cons]
      exact List.forall_mem_cons.mpr ⟨holds_watched h (holds_search_of_meets h atom hparts.1),
        holds_listElements_of_meets h rest hparts.2⟩

theorem holds_optionElement (h : Search.Closed p property streams) : ∀ value : Option Atom,
    (∀ atom, value = some atom → ∀ v, atom.Meets v → v.HoldsFree evaluate p property) →
      ∀ element, optionElement evaluate value = some element → element.matcher.Holds p property
  | none, _, _, helement => by cases helement
  | some atom, hfree, element, helement => by
      rw [optionElement, Option.some_inj] at helement
      rw [← helement]
      exact holds_watched h (holds_search_of_meets h atom (hfree atom rfl))

theorem holds_lawElements_of_meets (h : Search.Closed p property streams) :
    ∀ properties : PropertySet Atom,
    (∀ law value, properties.get law = some value →
      ∀ v, value.Meets v → v.HoldsFree evaluate p property) →
      ∀ law element, (lawElements evaluate properties).get law = some element →
        element.matcher.Holds p property
  | ⟨a, c, i, b, d⟩, hfree, law, element, helement => by
      cases law with
      | associative => exact holds_optionElement h a (hfree .associative) element helement
      | commutative => exact holds_optionElement h c (hfree .commutative) element helement
      | idempotent => exact holds_optionElement h i (hfree .idempotent) element helement
      | absorber => exact holds_optionElement h b (hfree .absorber) element helement
      | identity => exact holds_optionElement h d (hfree .identity) element helement

end

variable (h : Search.ClosedUnderBinding evaluate condition p property streams)

include h

theorem holdsFree_of_condition {v : Atom}
    (hv : ∀ name type guard mark, v = var name type guard 0 mark → condition name guard) :
    v.HoldsFree evaluate p property := by
  intro name type guard mark heq matcher hmatcher subject hsubject
  change property fun binds => ofFree evaluate v name guard matcher subject binds
  unfold ofFree
  split
  · exact h.known (hv name type guard mark heq)
  · exact h.continued (h.mapFailure _ (hmatcher _ (h.inherited.type hsubject)))
      (h.bind (hv name type guard mark heq) hsubject)

theorem holds_search (pattern : Atom)
    (hvariables : ∀ v ∈ patternVariables pattern, condition v.1 v.2) :
    (search evaluate pattern).Holds p property :=
  holds_search_of_meets h.toClosed pattern fun _ hv => holdsFree_of_condition h
    fun _ _ _ _ heq => hvariables _ (hv.mem_patternVariables heq)

theorem holds_listElements (list : List Atom)
    (hvariables : ∀ v ∈ list.flatMap patternVariables, condition v.1 v.2) :
    Element.Holds p property (listElements evaluate list) :=
  holds_listElements_of_meets h.toClosed list fun _ hatom _ hv => holdsFree_of_condition h
    fun _ _ _ _ heq => hvariables _
      (List.mem_flatMap.mpr ⟨_, hatom, hv.mem_patternVariables heq⟩)

end Atom

end Equational
