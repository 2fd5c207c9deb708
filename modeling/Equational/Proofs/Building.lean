import Equational.Natives
import Equational.Proofs.Preservation

/-!
# Evaluation builds well-made atoms

Whatever an engine makes of well-made atoms is well made: what rewriting and
application give, the lambdas that are formed, and all that matching binds.  So
are the combinations of property sets.  Of the native evaluations it is assumed
that they give well-made atoms for well-made calls, as the standard ones do.
-/

namespace Equational

open Atom Evaluation

/-!
## What is built from built atoms

Parts of built atoms are built, the type of an atom is, and so is what runs of them are wrapped up
in.
-/

namespace Atom

theorem Built.get {properties : Properties} {mark : Mark} (h : (propertySet properties mark).Built)
    (law : Law) {value : Atom} (hvalue : properties.get law = some value) : value.Built :=
  optionEverywhere_iff.mp (propertiesEverywhere_iff.mp h.2 law) value hvalue

theorem built_boolean (value : Bool) : (boolean value).Built := ⟨trivial, trivial⟩

theorem Everywhere.type {p : Atom → Prop} (huniverse : ∀ mark, p (typeUniverse mark))
    (hroot : ∀ name mark, p (root name mark)) {atom : Atom} (h : atom.Everywhere p) :
    atom.type.Everywhere p := by
  cases atom with
  | typeUniverse mark => exact h
  | root name mark => exact huniverse _
  | literal value type mark => exact h.2
  | var name type guard index mark => exact h.2.1
  | application head argument bound mark =>
      cases head with
      | operator op mark =>
          rcases op with ⟨name, properties, parameters, resultType, native⟩
          cases resultType with
          | none => exact hroot _ _
          | some type => exact h.2.1.2.2.2
      | _ => exact hroot _ _
  | _ => exact hroot _ _

theorem Built.type {atom : Atom} (h : atom.Built) : atom.type.Built :=
  Everywhere.type (fun _ => trivial) (fun _ _ => trivial) h

theorem built_and {s other legal : Properties} {mark : Mark} (hs : (propertySet s mark).Built)
    (hother : (propertySet other mark).Built) (hlegal : s.and other = .ok legal) :
    (propertySet legal mark).Built := by
  have hvalue : ∀ entry ∈ other.specified, entry.2.Built := by
    intro entry hentry
    rcases List.mem_filterMap.mp hentry with ⟨law, -, hlaw⟩
    rcases Option.map_eq_some_iff.mp hlaw with ⟨value, hget, rfl⟩
    exact hother.get law hget
  have hfold : ∀ (entries : List (Law × Atom)) (merged : Properties),
      (∀ entry ∈ entries, entry.2.Built) → PropertiesEverywhere WellMade merged →
      PropertiesEverywhere WellMade
        (entries.foldl (fun merged entry => merged.set entry.1 (some entry.2)) merged) := by
    intro entries
    induction entries with
    | nil => exact fun _ _ h => h
    | cons entry rest ih =>
        intro merged hentries h
        rw [List.forall_mem_cons] at hentries
        exact ih _ hentries.2 (propertiesEverywhere_set h hentries.1)
  exact built_of_checked hlegal (hfold _ s hvalue hs.2)

theorem built_negateLaw {law : Law} {value negated : Option Atom}
    (h : PropertySet.negateLaw law value = .ok negated) : OptionEverywhere WellMade negated := by
  cases value with
  | none =>
      cases h
      exact trivial
  | some atom =>
      cases htruth : atom.bool? with
      | none =>
          simp only [PropertySet.negateLaw, htruth] at h
          cases h
      | some truth =>
          simp only [PropertySet.negateLaw, htruth] at h
          cases h
          exact built_boolean _

theorem built_negate {s negated : Properties} {mark : Mark} (h : s.negate = .ok negated) :
    (propertySet negated mark).Built := by
  unfold PropertySet.negate at h
  cases hassociative : PropertySet.negateLaw .associative s.associative with
  | error e =>
      rw [hassociative] at h
      cases h
  | ok associative =>
      cases hcommutative : PropertySet.negateLaw .commutative s.commutative with
      | error e =>
          rw [hassociative, hcommutative] at h
          cases h
      | ok commutative =>
          cases hidempotent : PropertySet.negateLaw .idempotent s.idempotent with
          | error e =>
              rw [hassociative, hcommutative, hidempotent] at h
              cases h
          | ok idempotent =>
              rw [hassociative, hcommutative, hidempotent] at h
              have hlegal : PropertySet.checked
                  ⟨associative, commutative, idempotent, .none, .none⟩ = .ok negated := h
              exact built_of_checked hlegal ⟨built_negateLaw hassociative,
                built_negateLaw hcommutative, built_negateLaw hidempotent, trivial, trivial⟩

/-- A condition on all parts of an atom is passed on to parts, if it holds of what no atom carries
and of what runs of elements are wrapped up in. -/
theorem inherited_everywhere {p : Atom → Prop} (huniverse : ∀ mark, p (typeUniverse mark))
    (hroot : ∀ name mark, p (root name mark)) (hfalse : (boolean false).Everywhere p)
    (hproperties : ∀ {s mark}, p (sequence s mark) → p (propertySet s.properties .new))
    (hofList : ∀ {properties list}, p (propertySet properties .new) →
      p (sequence (.ofList properties list) .new))
    (happlied : ∀ {head s listMark bound mark run}, run.Subperm s.elements →
      p (application head (sequence s listMark) bound mark) →
        p (application head (sequence (.ofList s.properties run) .new) .empty .new)) :
    Inherited (Everywhere p) := by
  have hrun : ∀ {s : Sequence Atom} {mark : Mark} {run : List Atom},
      (sequence s mark).Everywhere p → run.Subperm s.elements →
        (sequence (.ofList s.properties run) .new).Everywhere p := by
    rintro ⟨properties, elements⟩ mark run h hsub
    exact ⟨hofList (hproperties h.1), h.2.1, listEverywhere_normalize (listEverywhere_iff.mpr
      fun atom hatom => listEverywhere_iff.mp h.2.2 atom (hsub.subset hatom))⟩
  exact {
    type h := h.type huniverse hroot
    lambda h := h.2
    law := by
      intro properties mark law value h hvalue
      rcases PropertySet.get_or_false_of_effective hvalue with hget | rfl
      · exact optionEverywhere_iff.mp (propertiesEverywhere_iff.mp h.2 law) value hget
      · exact hfalse
    sequence := by
      rintro ⟨properties, elements⟩ mark h
      exact ⟨⟨hproperties h.1, h.2.1⟩, listEverywhere_iff.mp h.2.2⟩
    application h := h.2
    run h hsub := hrun h hsub
    applied h hsub := ⟨happlied hsub h.1, h.2.1, hrun h.2.2 hsub⟩ }

theorem inherited_built : Inherited Built :=
  inherited_everywhere (fun _ => trivial) (fun _ _ => trivial) (built_boolean false)
    (fun h => h.1) (fun h => ⟨h, Sequence.normalize_normalize _ _⟩) fun _ _ => trivial

theorem isBoundVar_marked (place : Place) (atom : Atom) :
    (atom.marked place).isBoundVar = atom.isBoundVar := by
  rw [← isBoundVar_bare (f := id), like_marked id place atom, isBoundVar_bare]

theorem all_marked {p : Atom → Prop} (hlike : ∀ {a b}, Like id a b → p a → p b) {place : Place}
    {binds : Bindings} (h : binds.All p) : (binds.marked place).All p := by
  intro name atom hatom
  have hagree := (NameMap.agree_marked (f := id) place binds).find? name
  rw [hatom] at hagree
  cases hfind : binds.find? name with
  | none =>
      rw [hfind] at hagree
      cases hagree
  | some other =>
      rw [hfind] at hagree
      cases hagree with
      | some hother => exact hlike hother.symm (h name other hfind)

end Atom

/-!
## Rewriting
-/

namespace Atom

def BuildsApplied (apply : Place → Atom → Atom → Evaluation Atom) : Prop :=
  ∀ place head argument, head.Built → argument.Built → (apply place head argument).Yields Built

theorem kept_wellMade {apply : Place → Atom → Atom → Evaluation Atom}
    (happly : BuildsApplied apply) : Kept apply WellMade where
  new := by
    intro atom h
    cases atom with
    | _ => exact h
  var _ := trivial
  lambda h := h
  properties h := h.1
  ofList h := ⟨h, Sequence.normalize_normalize _ _⟩
  checked hlegal := by
    rw [eq_of_checked hlegal] at hlegal
    exact hlegal
  head _ _ := fun _ _ _ => trivial
  apply _ hhead hargument := happly _ _ _ hhead hargument

end Atom

/-!
## Application

What parameters are bound to inherits the conditions of the arguments.  So whatever passes from an
atom to its parts, and from parts to a normal sequence and to an application, is kept by applying
operators, and by applying lambdas where evaluation keeps it.
-/

/-- Everything that a native evaluation sees is built. -/
structure Call.Built (call : Call) : Prop where
  operator : (Atom.operator call.operator .new).Built
  arguments : (Atom.sequence call.arguments .new).Built
  bound : call.bound.All Atom.Built

def Natives.Build (natives : Natives) : Prop :=
  ∀ key call atom, call.Built → natives key call = some atom → atom.Built

/-- All parts of what a native evaluation sees satisfy a condition. -/
structure Call.Everywhere (p : Atom → Prop) (call : Call) : Prop where
  operator : (Atom.operator call.operator .new).Everywhere p
  arguments : (Atom.sequence call.arguments .new).Everywhere p
  bound : call.bound.All (Atom.Everywhere p)

def Natives.Keep (natives : Natives) (p : Atom → Prop) : Prop :=
  ∀ key call atom, Call.Everywhere p call → natives key call = some atom → atom.Everywhere p

theorem Natives.build_iff_keep {natives : Natives} : natives.Build ↔ natives.Keep WellMade := by
  constructor
  · intro h key call atom hcall
    exact h key call atom ⟨hcall.operator, hcall.arguments, hcall.bound⟩
  · intro h key call atom hcall
    exact h key call atom ⟨hcall.operator, hcall.arguments, hcall.bound⟩

theorem yields_first {q : Bindings → Prop} {outcome : Traced Outcome}
    (h : ∀ found ∈ outcome.alternatives, q found) (f : Failure → TermError) :
    (⟨Event.notices (outcome.andThen Outcome.first).events,
      (outcome.andThen Outcome.first).value.mapError f⟩ : Evaluation Bindings).Yields q := by
  intro binds hbinds
  cases hfirst : (outcome.andThen Outcome.first).value with
  | error failure =>
      simp only [hfirst] at hbinds
      cases hbinds
  | ok found =>
      simp only [hfirst] at hbinds
      cases hbinds
      rw [Traced.first_value_andThen, Outcome.first_eq_ok_iff] at hfirst
      exact h binds (List.mem_of_head? hfirst)

theorem all_of_mem_search {p : Atom → Prop} (hp : Inherited p) {evaluate : GuardEvaluator}
    {pattern subject : Atom} {binds found : Bindings} (hsubject : p subject) (hbinds : binds.All p)
    (hfound : found ∈ (matchWith evaluate pattern subject binds).alternatives) : found.All p :=
  Matcher.holds_watched (invariant_all hp).closed
    (keeps_search evaluate (invariant_all hp) fun _ _ => trivial)
    subject hsubject binds found hfound hbinds

namespace Operator

variable {op : Operator Atom} {evaluate : GuardEvaluator} {natives : Natives}

theorem all_bindParameters {p : Atom → Prop} (hp : Inherited p) {parameters list : List Atom}
    (h : ∀ atom ∈ list, p atom) :
    (op.bindParameters evaluate parameters list).Yields fun bound => bound.All p := by
  refine yields_first (fun found hfound => ?_) _
  exact Element.holds_matchAll (invariant_all hp).closed
    (keeps_listElements evaluate (invariant_all hp) fun _ _ => trivial) h
    .empty found hfound NameMap.all_empty

end Operator

/-- A condition on all parts that matching passes on, and that holds of the normal sequence and of
the application that an operator makes of its arguments. -/
structure Atom.Assembled (p : Atom → Prop) : Prop where
  inherited : Inherited (Everywhere p)
  like : ∀ {a b}, Like id a b → a.Everywhere p → b.Everywhere p
  sequence : ∀ {op list}, (operator op .new).Everywhere p →
    p (.sequence (.ofList op.properties list) .new)
  application : ∀ {op argument bound}, (operator op .new).Everywhere p →
    p (.application (.operator op .new) argument bound .new)

namespace Atom.Assembled

variable {p : Atom → Prop} (hp : Assembled p) {natives : Natives} (hnatives : natives.Keep p)
  {evaluate : GuardEvaluator} {op : Operator Atom} {mark : Mark}
  (hop : (operator op mark).Everywhere p)
include hp hnatives hop

theorem yields_dispatch {parameters list : List Atom} (hlist : ∀ atom ∈ list, atom.Everywhere p) :
    (op.dispatch natives evaluate parameters list).Yields (Everywhere p) := by
  have hnew : (operator op .new).Everywhere p :=
    hp.like (a := operator op mark) (by rw [Like, bare_operator, bare_operator]) hop
  have harguments : (Atom.sequence (.ofList op.properties list) .new).Everywhere p :=
    ⟨hp.sequence hnew, hop.properties, listEverywhere_normalize (listEverywhere_iff.mpr hlist)⟩
  unfold Operator.dispatch
  refine (Operator.all_bindParameters hp.inherited hlist).bind fun bound hbound => ?_
  unfold Operator.evaluateCall
  split
  · rename_i result hresult
    rcases Option.bind_eq_some_iff.mp hresult with ⟨key, -, hnative⟩
    exact Yields.noted (yields_value (hnatives key _ result ⟨hnew, harguments, hbound⟩ hnative))
  · exact yields_value ⟨hp.application hnew, hnew, harguments⟩

theorem yields_applyWith {argument : Atom} (hargument : argument.Everywhere p) :
    (op.applyWith natives evaluate argument).Yields (Everywhere p) :=
  Operator.yields_applyWith (passedOn_everywhere p) hop (hp.yields_dispatch hnatives hop) hargument

end Atom.Assembled

namespace Atom

variable {natives : Natives} {evaluate : GuardEvaluator}

/-- What a lambda puts into its body is bound by matching its argument, and so it satisfies the
conditions that the argument passes on to its parts. -/
theorem yields_applyLambda_of_all {p q : Atom → Prop} (hp : Inherited p)
    (hlike : ∀ {a b}, Like id a b → p a → p b) {place : Place} {parameter body argument : Atom}
    (hevaluate : ∀ binds, binds.All p → (evaluate binds body).Yields q) (hargument : p argument) :
    (applyLambda evaluate place parameter body argument).Yields q := by
  cases parameter with
  | var name type guard index mark =>
      unfold applyLambda
      simp only
      have hmarked : p (argument.marked (3 :: place)) :=
        hlike (like_marked (f := id) _ argument).symm hargument
      refine (yields_first (fun found hfound => ?_) _).andThen fun binds h =>
        hevaluate _ (all_marked hlike h)
      exact all_of_mem_search hp hmarked NameMap.all_empty hfound
  | _ => exact yields_error _

theorem yields_applyLambda {p : Atom → Prop} (hp : Inherited p)
    (hlike : ∀ {a b}, Like id a b → p a → p b)
    (hevaluate : ∀ binds atom, binds.All p → p atom → (evaluate binds atom).Yields p)
    {place : Place} {parameter body argument : Atom} (hbody : p body) (hargument : p argument) :
    (applyLambda evaluate place parameter body argument).Yields p :=
  yields_applyLambda_of_all hp hlike (fun binds hbinds => hevaluate binds body hbinds hbody)
    hargument

theorem built_properties {op : Operator Atom} {mark : Mark} (hop : (operator op mark).Built) :
    (propertySet op.properties .new).Built := by
  rcases op with ⟨name, properties, parameters, resultType, native⟩
  exact ⟨hop.1.1, hop.2.1⟩

theorem assembled_wellMade : Assembled WellMade where
  inherited := inherited_built
  like := Built.of_like
  sequence hop := ⟨(built_properties hop).1, Sequence.normalize_normalize _ _⟩
  application _ := trivial

theorem built_applyWith (hnatives : natives.Build) (hevaluate : evaluate.Keeps WellMade)
    {place : Place} {head argument : Atom} (hhead : head.Built) (hargument : argument.Built) :
    (applyWith natives evaluate place head argument).Yields Built := by
  cases head with
  | operator op mark =>
      exact assembled_wellMade.yields_applyWith (Natives.build_iff_keep.mp hnatives) hhead hargument
  | lambda parameter body mark =>
      exact yields_applyLambda inherited_built Built.of_like hevaluate hhead.2.2 hargument
  | _ => exact yields_value ⟨trivial, hhead, hargument⟩

theorem buildsApplied_applyWithin (hnatives : natives.Build) (nesting : Nat) :
    BuildsApplied (applyWithin natives nesting) := by
  induction nesting with
  | zero => exact fun _ _ _ _ _ => yields_error _
  | succ nesting ih =>
      intro place head argument hhead hargument
      exact built_applyWith hnatives ((kept_wellMade ih).keeps (2 :: place)) hhead hargument

end Atom

/-!
## The engine
-/

namespace Engine

variable {engine : Engine}

theorem all_tryMatch {pattern subject : Atom} {binds found : Bindings} (hsubject : subject.Built)
    (hbinds : binds.All Built)
    (hfound : found ∈ (engine.tryMatch pattern subject binds).alternatives) : found.All Built :=
  all_of_mem_search inherited_built hsubject hbinds hfound

def binder (body type : Atom) (guard : Option Atom) : Atom :=
  .var (":" ++ Number.natText (body.bindingIndex + 1).toNat) type guard (body.bindingIndex + 1) .new

/-- A lambda is made of a pattern variable and a body: in the guard of the variable and in the body
it is replaced by the variable that the lambda binds. -/
theorem exists_of_lambda {parameter body result : Atom}
    (h : (engine.lambda parameter body).result = .ok result) :
    ∃ name type guard mark newGuard newBody, parameter = .var name type guard 0 mark ∧
      Option.Rel (fun condition renamed => ((engine.step 0).evaluate
        (NameMap.empty.insert name ((binder body type none).marked (2 :: engine.place)))
        condition).result = .ok renamed) guard newGuard ∧
      ((engine.step 1).evaluate
        (NameMap.empty.insert name ((binder body type newGuard).marked (3 :: engine.place)))
        body).result = .ok newBody ∧
      result = .lambda ((binder body type newGuard).marked (3 :: engine.place)) newBody .new := by
  unfold lambda at h
  split at h
  · rename_i name type guard mark
    simp only at h
    split at h
    · rcases (result_bind_eq_ok_iff _ _ _).mp h with ⟨renamed, hrenamed, h⟩
      rcases (result_bind_eq_ok_iff _ _ _).mp h with ⟨newGuard, hnewGuard, h⟩
      rcases (result_bind_eq_ok_iff _ _ _).mp h with ⟨newBody, hnewBody, h⟩
      cases hnewGuard
      cases h
      exact ⟨name, type, _, mark, _, newBody, rfl, .some hrenamed, hnewBody, rfl⟩
    · rcases (result_bind_eq_ok_iff _ _ _).mp h with ⟨newGuard, hnewGuard, h⟩
      rcases (result_bind_eq_ok_iff _ _ _).mp h with ⟨newBody, hnewBody, h⟩
      cases hnewGuard
      cases h
      exact ⟨name, type, none, mark, none, newBody, rfl, .none, hnewBody, rfl⟩
  · cases h

section

variable (hnatives : engine.natives.Build)
include hnatives

theorem built_apply {head argument : Atom} (hhead : head.Built) (hargument : argument.Built) :
    (engine.apply head argument).Yields Built :=
  buildsApplied_applyWithin hnatives engine.nesting engine.place head argument hhead hargument

theorem built_rewrite {binds : Bindings} {atom : Atom} (hbinds : binds.All Built)
    (hatom : atom.Built) : (engine.rewrite binds atom).Yields fun new => new.value.Built :=
  everywhere_rewriteWith (kept_wellMade (buildsApplied_applyWithin hnatives engine.nesting)) hbinds
    atom hatom _

theorem keeps_evaluate : engine.evaluate.Keeps WellMade :=
  (kept_wellMade (buildsApplied_applyWithin hnatives engine.nesting)).keeps engine.place

/-- The lambda of a built variable and a built body is built, unless the indices are exhausted. -/
theorem built_lambda {parameter body : Atom} (hparameter : parameter.Built) (hbody : body.Built)
    (hindex : body.bindingIndex + 1 ≠ 0) : (engine.lambda parameter body).Yields Built := by
  intro result h
  rcases exists_of_lambda h with
    ⟨name, type, guard, mark, newGuard, newBody, rfl, hguard, hnewBody, rfl⟩
  have hbinder : ∀ condition : Option Atom, OptionEverywhere WellMade condition → ∀ place,
      ((binder body type condition).marked place).Built :=
    fun condition hcondition place => built_marked.mpr ⟨trivial, hparameter.2.1, hcondition⟩
  have hnewGuard : OptionEverywhere WellMade newGuard := by
    cases hguard with
    | none => trivial
    | some hrenamed =>
        exact @keeps_evaluate (engine.step 0) hnatives _ _
          (NameMap.all_empty.insert (hbinder none trivial _)) hparameter.2.2 _ hrenamed
  have hnew := hbinder newGuard hnewGuard (3 :: engine.place)
  refine ⟨?_, hnew, @keeps_evaluate (engine.step 1) hnatives _ _
    (NameMap.all_empty.insert hnew) hbody _ hnewBody⟩
  exact (isBoundVar_marked _ _).trans (bne_iff_ne.mpr hindex)

end

end Engine

/-!
## Standard evaluations
-/

namespace Native

section

variable {p : Atom → Prop} (hliteral : ∀ value, (ofLiteral value).Everywhere p)
  (hplain : ∀ list, p (.sequence (.plain list) .new))

theorem everywhere_first {call : Call} (h : call.Everywhere p) {atom : Atom}
    (hfirst : call.first? = some atom) : atom.Everywhere p := by
  unfold Call.first? at hfirst
  split at hfirst
  · exact h.bound _ _ hfirst
  · cases hfirst

include hplain in
theorem everywhere_plain {list : List Atom} (h : ∀ atom ∈ list, atom.Everywhere p) :
    (Atom.sequence (.plain list) .new).Everywhere p :=
  ⟨hplain list, ⟨trivial, trivial, trivial, trivial, trivial⟩,
    listEverywhere_normalize (listEverywhere_iff.mpr h)⟩

include hliteral in
theorem everywhere_foldFitting {f : Int → Int → Int} {start : Int} {list : List Int} {atom : Atom}
    (h : foldFitting f start list = some atom) : atom.Everywhere p := by
  rcases Option.map_eq_some_iff.mp h with ⟨total, -, rfl⟩
  exact hliteral _

include hliteral hplain in
theorem keep_standard (hp : Assembled p) : Natives.Keep standard p := by
  intro key call atom h hatom
  unfold standard at hatom
  split at hatom
  · rcases Option.bind_eq_some_iff.mp hatom with ⟨list, -, hfold⟩
    exact everywhere_foldFitting hliteral hfold
  · rcases Option.bind_eq_some_iff.mp hatom with ⟨list, -, hfold⟩
    exact everywhere_foldFitting hliteral hfold
  · rcases Option.map_eq_some_iff.mp hatom with ⟨i, -, rfl⟩
    exact hliteral _
  · rcases Option.map_eq_some_iff.mp hatom with ⟨i, -, rfl⟩
    exact hliteral _
  · rcases Option.map_eq_some_iff.mp hatom with ⟨b, -, rfl⟩
    exact hliteral _
  · split at hatom
    · cases hatom
      exact hliteral _
    · cases hatom
  · exact everywhere_first h hatom
  · cases hatom
    exact hliteral _
  · cases hatom
    exact h.arguments
  · cases hatom
    apply everywhere_plain hplain
    rw [List.forall_mem_map]
    exact fun entry _ => hliteral _
  · cases hatom
    exact everywhere_plain hplain
      (List.forall_mem_singleton.mpr ⟨hp.application h.operator, h.operator, h.arguments⟩)
  · cases hatom
    exact hliteral _
  · cases hatom

end

theorem build_standard : Natives.Build standard :=
  Natives.build_iff_keep.mpr (keep_standard (fun _ => ⟨trivial, trivial⟩)
    (fun _ => ⟨rfl, Sequence.normalize_normalize _ _⟩) assembled_wellMade)

end Native

end Equational
