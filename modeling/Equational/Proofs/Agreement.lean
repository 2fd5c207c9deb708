import Equational.Proofs.Composed
import Equational.Proofs.ReachableNames
import Equational.Proofs.Termination

/-!
# Argument lists that agree with their operator

An operator hands its properties to the argument lists of its applications, where they are
checked against the operator again whenever the application is built anew.  Rewriting takes
an operator as it is, but looks for variables in the properties of a list.  So the two stay
in step as long as nothing is put in the place of a variable that the operator declares;
otherwise the list requests what the operator never declared, and is refused.

What rewriting keeps is stated for all operators of one name, since a refusal names the
operator: their applications carry their properties, everything else that may come to be
one of their applications requests nothing, and no name that is ever substituted occurs in
what they declare.
-/

namespace Equational

open Evaluation

/-!
## Evaluations without a refusal

Other errors are no refusals: what is shown is that a refusal of the given operators cannot come,
whatever else goes wrong.
-/

namespace Evaluation

variable {α β : Type} {p : α → Prop} {q : β → Prop} {n : String}

/-- The evaluation gives a value that satisfies a condition, unless it fails; and it does not fail
because an operator of the name refuses a request. -/
structure Unrefused (n : String) (p : α → Prop) (evaluation : Evaluation α) : Prop where
  yields : evaluation.Yields p
  error : ∀ law requested declared,
    evaluation.result ≠ .error (.mismatch n law requested declared)

theorem unrefused_value {a : α} (h : p a) : (value a).Unrefused n p where
  yields := yields_value h
  error _ _ _ h := by cases h

theorem unrefused_error {e : TermError}
    (h : ∀ law requested declared, e ≠ .mismatch n law requested declared) :
    (error e : Evaluation α).Unrefused n p where
  yields := yields_error e
  error law requested declared heq := h law requested declared (Except.error.inj heq)

theorem Unrefused.andThen {first : Evaluation α} {next : α → Evaluation β}
    (h : first.Unrefused n p) (hnext : ∀ a, p a → (next a).Unrefused n q) :
    (first.andThen next).Unrefused n q where
  yields := h.yields.andThen fun a ha => (hnext a ha).yields
  error law requested declared := by
    have herror := h.error law requested declared
    unfold Evaluation.andThen
    cases hresult : first.result with
    | error e =>
        rw [hresult] at herror
        intro heq
        exact herror (congrArg Except.error (Except.error.inj heq))
    | ok a => exact (hnext a (h.yields a hresult)).error law requested declared

theorem Unrefused.bind {first : Evaluation α} {next : α → Evaluation β}
    (h : first.Unrefused n p) (hnext : ∀ a, p a → (next a).Unrefused n q) :
    (first >>= next).Unrefused n q :=
  h.andThen hnext

theorem Unrefused.noted {notice : Notice} {next : Evaluation β} (h : next.Unrefused n q) :
    (note notice >>= fun _ => next).Unrefused n q where
  yields := Yields.noted h.yields
  error := h.error

theorem Unrefused.and {evaluation : Evaluation α} {p' : α → Prop}
    (h : evaluation.Unrefused n p) (h' : evaluation.Yields p') :
    evaluation.Unrefused n fun a => p a ∧ p' a where
  yields := h.yields.and h'
  error := h.error

end Evaluation

namespace NameMap

def BindsOnly (names : String → Prop) (binds : Bindings) : Prop :=
  ∀ key, binds.contains key = true → names key

variable {names : String → Prop} {binds : Bindings}

theorem BindsOnly.find?_eq_none (h : binds.BindsOnly names) {key : String} (hkey : ¬names key) :
    binds.find? key = none := by
  cases hfind : binds.find? key with
  | none => rfl
  | some atom => exact absurd (h key (by rw [contains, hfind]; rfl)) hkey

theorem bindsOnly_empty : BindsOnly names .empty := by
  intro key h
  cases h

theorem BindsOnly.insert (h : binds.BindsOnly names) {name : String} (hname : names name)
    (atom : Atom) : (binds.insert name atom).BindsOnly names := by
  intro key hkey
  rcases gains_insert (n := names) hname atom key hkey with hbound | hnew
  · exact h key hbound
  · exact hnew

end NameMap

namespace Atom

/-!
## Rewriting without the names

Names that rewriting comes across are names of variables in the atom.  Where none of them is
bound, the laws of a list stay what they are.
-/

def Named (names : String → Prop) : Atom → Prop
  | var key _ _ _ _ => names key
  | _ => True

abbrev Avoids (names : String → Prop) : Atom → Prop := Named fun key => ¬names key

theorem named_bare {names : String → Prop} {f : Option String → Option String} (atom : Atom) :
    (atom.bare f).Named names ↔ atom.Named names := by
  cases atom with
  | sequence s mark => rw [bare_sequence]; exact Iff.rfl
  | operator op mark => rw [bare_operator]; exact Iff.rfl
  | _ => exact Iff.rfl

section

variable {names : String → Prop}

theorem forall_mem_reachableNames {atom : Atom} (h : atom.Everywhere (Named names)) :
    ∀ name ∈ atom.reachableNames, names name := by
  refine h.forall_mem_gather fun part hpart => ?_
  cases part with
  | var name type guard index mark => exact List.forall_mem_singleton.mpr hpart
  | _ => exact List.forall_mem_nil _

theorem rewriteProperties_of_avoids {apply : Place → Atom → Atom → Evaluation Atom}
    {binds : Bindings}
    (hnames : binds.BindsOnly names) {properties : Properties}
    (h : PropertiesEverywhere (Avoids names) properties) (place : Place) :
    rewriteProperties apply binds place properties = Rewritten.same properties := by
  refine rewriteProperties_of_misses properties (fun name hname => hnames.find?_eq_none ?_) place
  rcases List.mem_flatMap.mp hname with ⟨value, hvalue, hname⟩
  exact forall_mem_reachableNames (propertiesEverywhere_iff_values.mp h value hvalue) name hname

end

/-!
## Lists that carry properties
-/

def Carries (properties : Properties) (argument : Atom) : Prop :=
  ∃ s mark, argument = sequence s mark ∧ s.properties.SameTerm properties

section

variable {properties : Properties} {argument : Atom}

theorem carries_bare {f : Option String → Option String} :
    (argument.bare f).Carries properties ↔ argument.Carries properties := by
  have hproperties : ∀ s : Sequence Atom,
      (s.properties.bare f).SameTerm properties ↔ s.properties.SameTerm properties := by
    intro s
    rw [PropertySet.SameTerm, PropertySet.SameTerm, PropertySet.bare_bare]
    exact Iff.rfl
  constructor
  · rintro ⟨s, mark, heq, hcarried⟩
    cases argument with
    | sequence t listMark =>
        rw [bare_sequence] at heq
        cases heq
        exact ⟨t, listMark, rfl, (hproperties t).mp hcarried⟩
    | operator op mark =>
        rw [bare_operator] at heq
        cases heq
    | _ => cases heq
  · rintro ⟨s, mark, rfl, hcarried⟩
    rw [bare_sequence]
    exact ⟨_, _, rfl, (hproperties s).mpr hcarried⟩

theorem Carries.rewriteWith {names : String → Prop} (h : argument.Carries properties)
    (hproperties : PropertiesEverywhere (Avoids names) properties)
    {apply : Place → Atom → Atom → Evaluation Atom} {binds : Bindings}
    (hnames : binds.BindsOnly names) (place : Place) :
    (Atom.rewriteWith apply binds place argument).Yields fun new =>
      new.value.Carries properties := by
  rcases h with ⟨s, mark, rfl, hcarried⟩
  rcases s with ⟨carried, elements⟩
  have hkept : ∀ list mark, (sequence ⟨carried, list⟩ mark).Carries properties :=
    fun list mark => ⟨_, _, rfl, hcarried⟩
  have hcarriedAvoids : PropertiesEverywhere (Avoids names) carried := by
    have hsame : propertiesBare (fun _ => none) carried =
        propertiesBare (fun _ => none) properties :=
      hcarried
    rwa [← propertiesEverywhere_bare named_bare, hsame, propertiesEverywhere_bare named_bare]
  rw [Atom.rewriteWith, rewriteSequence, rewriteProperties_of_avoids hnames hcarriedAvoids]
  refine Yields.bind (p := fun new => ∃ list, new.value = ⟨carried, list⟩) ?_ fun new hnew => ?_
  · split
    · exact yields_value ⟨elements, rfl⟩
    · refine Yields.bind (p := fun new => new = ⟨carried, false⟩) (yields_value rfl)
        fun newProperties hproperties => ?_
      refine Yields.bind (p := fun _ => True) (fun _ _ => trivial) fun newElements _ => ?_
      rw [hproperties]
      split
      · exact yields_value ⟨_, rfl⟩
      · exact yields_value ⟨elements, rfl⟩
  · rcases hnew with ⟨list, hvalue⟩
    split
    · rw [hvalue]
      exact yields_value (hkept list _)
    · exact yields_value (hkept elements _)

theorem carries_bare_properties {f : Option String → Option String} :
    argument.Carries (properties.bare f) ↔ argument.Carries properties := by
  have hproperties : (properties.bare f).bare (fun _ => none) = properties.bare fun _ => none :=
    PropertySet.bare_bare f _ properties
  simp only [Carries, PropertySet.SameTerm, hproperties]

end

/-!
## Atoms in step
-/

/-- The name of a parameter whose guard is renamed when it is copied. -/
def guardedName? : Atom → Option String
  | var key _ (some _) _ _ => some key
  | _ => none

theorem guardedName?_bare {f : Option String → Option String} (atom : Atom) :
    (atom.bare f).guardedName? = atom.guardedName? := by
  cases atom with
  | sequence s mark => rw [bare_sequence]; rfl
  | operator op mark => rw [bare_operator]; rfl
  | var key type guard index mark => cases guard <;> rfl
  | _ => rfl

/-- As the parameter of a lambda, the atom binds only names that satisfy a condition. -/
def BindsNamed (names : String → Prop) : Atom → Prop
  | var key type _ _ _ => names key ∧ type.Everywhere (Named names)
  | _ => True

theorem bindsNamed_bare {names : String → Prop} {f : Option String → Option String} (atom : Atom) :
    (atom.bare f).BindsNamed names ↔ atom.BindsNamed names := by
  cases atom with
  | sequence s mark => rw [bare_sequence]; exact Iff.rfl
  | operator op mark => rw [bare_operator]; exact Iff.rfl
  | var key type guard index mark => exact and_congr_right fun _ => everywhere_bare named_bare type
  | _ => exact Iff.rfl

/-- What keeps the argument lists of operators of one name in step with them, at each part of an
atom.  Their applications carry what they declare; whatever else is applied, lambdas aside, is
applied to lists that request nothing.  Names of the given kind occur in nothing that they declare,
and no other names are ever bound, be it by a guard that is renamed or by a lambda. -/
def InStep (n : String) (names : String → Prop) : Atom → Prop
  | operator op _ =>
    (op.name = n → PropertiesEverywhere (Avoids names) op.properties) ∧
      ∀ parameter ∈ op.parameters, ∀ key, parameter.guardedName? = some key → names key
  | lambda parameter _ _ => parameter.BindsNamed names
  | application (operator op _) argument _ _ => op.name = n → argument.Carries op.properties
  | application (lambda _ _ _) _ _ _ => True
  | application _ argument _ _ => argument.Carries .none
  | _ => True

variable {n : String} {names : String → Prop}

theorem inStep_bare {f : Option String → Option String} (atom : Atom) :
    (atom.bare f).InStep n names ↔ atom.InStep n names := by
  cases atom with
  | sequence s mark => rw [bare_sequence]; exact Iff.rfl
  | operator op mark =>
      rcases op with ⟨name, properties, parameters, resultType, native⟩
      have hparameters : (∀ parameter ∈ listBare f parameters, ∀ key,
          parameter.guardedName? = some key → names key) ↔
          ∀ parameter ∈ parameters, ∀ key, parameter.guardedName? = some key → names key := by
        simp only [listBare_eq_map, List.forall_mem_map, guardedName?_bare]
      exact and_congr (imp_congr_right fun _ => propertiesEverywhere_bare named_bare properties)
        hparameters
  | lambda parameter body mark => exact bindsNamed_bare parameter
  | application head argument bound mark =>
      cases head with
      | operator op mark =>
          rw [bare_application, bare_operator]
          exact imp_congr_right fun _ => carries_bare.trans carries_bare_properties
      | lambda parameter body mark => exact Iff.rfl
      | sequence s mark => rw [bare_application, bare_sequence]; exact carries_bare
      | _ => exact carries_bare
  | _ => exact Iff.rfl

theorem everywhere_inStep_of_like {a b : Atom} (h : Like id a b)
    (ha : a.Everywhere (InStep n names)) : b.Everywhere (InStep n names) := by
  rw [← everywhere_bare inStep_bare] at ha ⊢
  rwa [← h]

theorem inherited_inStep : Inherited (Everywhere (InStep n names)) := by
  refine inherited_everywhere (fun _ => trivial) (fun _ _ => trivial) ⟨trivial, trivial⟩
    (fun _ => trivial) (fun _ => trivial) ?_
  intro head s listMark bound mark run _ h
  have hcarries : ∀ {properties}, (sequence s listMark).Carries properties →
      (sequence (.ofList s.properties run) .new).Carries properties := by
    rintro properties ⟨t, tMark, heq, hcarried⟩
    cases heq
    exact ⟨_, _, rfl, hcarried⟩
  cases head with
  | operator op opMark => exact fun hname => hcarries (h hname)
  | lambda parameter body lambdaMark => trivial
  | _ => exact hcarries h

/-- An application may be built anew: an operator of the name is handed a list that carries its
properties, or one that requests nothing. -/
def Requests (n : String) : Atom → Atom → Prop
  | operator op _, argument => op.name = n → argument.Carries op.properties ∨ argument.Carries .none
  | lambda _ _ _, _ => True
  | _, argument => argument.Carries .none

theorem requests_of_carries_none {head argument : Atom} (h : argument.Carries .none) :
    Requests n head argument := by
  cases head with
  | operator op mark => exact fun _ => Or.inr h
  | lambda parameter body mark => trivial
  | _ => exact h

end Atom

namespace Operator

open Atom

variable {op : Operator Atom} {argument : Atom}

/-- A list that carries what an operator declares requests nothing else, nor does one that carries
nothing. -/
theorem mismatch?_of_carries {s : Sequence Atom}
    (h : s.properties.SameTerm op.properties ∨ s.properties.SameTerm .none) :
    op.mismatch? s.properties = none := by
  refine mismatch?_of_declared fun law value hget => ?_
  rcases h with hsame | hnone
  · have hterm := hsame.get law
    rw [hget, Option.map_some] at hterm
    rcases Option.map_eq_some_iff.mp hterm.symm with ⟨declared, hdeclared, hequal⟩
    rw [declared?_of_get hdeclared]
    exact beq_of_bare_eq hequal
  · have hterm := hnone.get law
    rw [hget, PropertySet.get_none] at hterm
    cases hterm

end Operator

/-!
## Rewriting

An application that is in step is built anew from its rewritten parts: its operator is the same up
to its atoms, and its list still carries what the operator declares.
-/

theorem unrefused_first {n : String} {q : Bindings → Prop} {outcome : Traced Outcome}
    (h : ∀ found ∈ outcome.alternatives, q found) {f : Failure → TermError}
    (hf : ∀ failure law requested declared, f failure ≠ .mismatch n law requested declared) :
    (⟨Event.notices (outcome.andThen Outcome.first).events,
      (outcome.andThen Outcome.first).value.mapError f⟩ : Evaluation Bindings).Unrefused n q where
  yields := yields_first h f
  error law requested declared := by
    cases (outcome.andThen Outcome.first).value with
    | error failure => exact fun heq => hf failure law requested declared (Except.error.inj heq)
    | ok found => exact fun heq => by cases heq

theorem unrefused_checked {n : String} {properties : Properties} :
    (ofExcept (properties.checked.mapError TermError.property)).Unrefused n fun legal =>
      properties.checked = .ok legal where
  yields := Atom.yields_checked
  error law requested declared := by
    cases properties.checked with
    | error error => exact fun h => by cases h
    | ok legal => exact fun h => by cases h

namespace Atom

variable {n : String} {names : String → Prop} {apply : Place → Atom → Atom → Evaluation Atom}
  {binds : Bindings}

/-- Application keeps atoms in step, if it is not requested to do otherwise. -/
def KeepsStep (n : String) (names : String → Prop)
    (apply : Place → Atom → Atom → Evaluation Atom) : Prop :=
  ∀ place head argument, Requests n head argument → head.Everywhere (InStep n names) →
    argument.Everywhere (InStep n names) →
      (apply place head argument).Unrefused n (Everywhere (InStep n names))

/-- An application that is in step is built anew from its rewritten parts: an operator at its head
is left as it is, and so are the properties of its list. -/
theorem requests_of_rewritten {head argument : Atom} {bound : Bindings} {mark : Mark}
    (h : (application head argument bound mark).InStep n names)
    (hhead : head.Everywhere (InStep n names)) (hnames : binds.BindsOnly names)
    {headPlace argumentPlace : Place} {newHead newArgument : Rewritten Atom}
    (hnewHead : (rewriteWith apply binds headPlace head).result = .ok newHead)
    (hnewArgument : (rewriteWith apply binds argumentPlace argument).result = .ok newArgument) :
    Requests n newHead.value newArgument.value := by
  have hplain : argument.Carries .none → Requests n newHead.value newArgument.value := fun hnone =>
    requests_of_carries_none (hnone.rewriteWith ⟨trivial, trivial, trivial, trivial, trivial⟩ hnames
      argumentPlace newArgument hnewArgument)
  cases head with
  | operator op opMark =>
      rw [rewriteWith] at hnewHead
      cases hnewHead
      intro hname
      have hproperties : PropertiesEverywhere (Avoids names) op.properties := by
        rcases op with ⟨name, properties, parameters, resultType, native⟩
        exact hhead.1.1 hname
      exact Or.inl ((h hname).rewriteWith hproperties hnames argumentPlace newArgument hnewArgument)
  | lambda parameter body lambdaMark =>
      rw [rewriteWith] at hnewHead
      split at hnewHead
      · cases hnewHead
        trivial
      · rcases (result_bind_eq_ok_iff _ _ _).mp hnewHead with ⟨newBody, -, hnewHead⟩
        split at hnewHead <;> cases hnewHead <;> trivial
  | _ => exact hplain h

mutual

/-- Rewriting keeps atoms in step, and no operator of the name refuses a request on the way. -/
theorem unrefused_rewriteWith (happly : KeepsStep n names apply)
    (hbinds : binds.All (Everywhere (InStep n names))) (hnames : binds.BindsOnly names) :
    ∀ atom : Atom, atom.Everywhere (InStep n names) → ∀ place,
    (rewriteWith apply binds place atom).Unrefused n fun new =>
      new.value.Everywhere (InStep n names)
  | typeUniverse mark => fun h place => by
      rw [rewriteWith]
      exact unrefused_value h
  | root name mark => fun h place => by
      rw [rewriteWith]
      exact unrefused_value h
  | literal value type mark => fun h place => by
      rw [rewriteWith]
      exact unrefused_value h
  | operator op mark => fun h place => by
      rw [rewriteWith]
      exact unrefused_value h
  | var key type guard index mark => fun h place => by
      rw [rewriteWith]
      split
      · exact unrefused_value h
      · split
        · rename_i atom hfind
          exact unrefused_value (hbinds key atom hfind)
        · split
          · exact unrefused_value h
          · refine (unrefused_rewriteWith happly hbinds hnames type h.2.1 _).bind
              fun newType htype => ?_
            refine (unrefused_rewriteOption happly hbinds hnames guard h.2.2 _).bind
              fun newGuard hguard => ?_
            split
            · exact unrefused_value ⟨trivial, htype, hguard⟩
            · exact unrefused_value h
  | lambda parameter body mark => fun h place => by
      rw [rewriteWith]
      split
      · exact unrefused_value h
      · refine (unrefused_rewriteWith happly hbinds hnames body h.2.2 _).bind
          fun newBody hbody => ?_
        split
        · exact unrefused_value ⟨h.1, h.2.1, hbody⟩
        · exact unrefused_value h
  | sequence ⟨properties, elements⟩ mark => fun h place => by
      rw [rewriteWith]
      refine (unrefused_rewriteSequence happly hbinds hnames ⟨properties, elements⟩ h.2 _).bind
        fun new hnew => ?_
      split
      · exact unrefused_value hnew
      · exact unrefused_value h
  | propertySet properties mark => fun h place => by
      rw [rewriteWith]
      refine (unrefused_rewriteProperties happly hbinds hnames properties h.2 _).bind
        fun new hnew => ?_
      split
      · exact unrefused_value ⟨trivial, hnew⟩
      · exact unrefused_value h
  | application head argument bound mark => fun h place => by
      rw [rewriteWith]
      split
      · exact unrefused_value h
      · refine ((unrefused_rewriteWith happly hbinds hnames head h.2.1 _).and fun _ => id).bind
          fun newHead hhead => ?_
        refine ((unrefused_rewriteWith happly hbinds hnames argument h.2.2 _).and fun _ => id).bind
          fun newArgument hargument => ?_
        split
        · have hrequests := requests_of_rewritten h.1 h.2.1 hnames hhead.2 hargument.2
          exact (happly place _ _ hrequests hhead.1 hargument.1).bind fun applied happlied =>
            unrefused_value happlied
        · exact unrefused_value h

theorem unrefused_rewriteSequence (happly : KeepsStep n names apply)
    (hbinds : binds.All (Everywhere (InStep n names))) (hnames : binds.BindsOnly names) :
    ∀ s : Sequence Atom, PropertiesEverywhere (InStep n names) s.properties ∧
      ListEverywhere (InStep n names) s.elements → ∀ place,
    (rewriteSequence apply binds place s).Unrefused n fun new =>
      (sequence new.value .new).Everywhere (InStep n names)
  | ⟨properties, elements⟩ => fun h place => by
      rw [rewriteSequence]
      split
      · exact unrefused_value ⟨trivial, h⟩
      · refine (unrefused_rewriteProperties happly hbinds hnames properties h.1 _).bind
          fun newProperties hproperties => ?_
        refine (unrefused_rewriteList happly hbinds hnames elements h.2 _).bind
          fun newElements helements => ?_
        split
        · exact unrefused_value ⟨trivial, hproperties, listEverywhere_normalize helements⟩
        · exact unrefused_value ⟨trivial, h⟩

theorem unrefused_rewriteList (happly : KeepsStep n names apply)
    (hbinds : binds.All (Everywhere (InStep n names))) (hnames : binds.BindsOnly names) :
    ∀ list : List Atom, ListEverywhere (InStep n names) list → ∀ place,
    (rewriteList apply binds place list).Unrefused n fun new =>
      ListEverywhere (InStep n names) new.value
  | [] => fun _ place => by
      rw [rewriteList]
      exact unrefused_value trivial
  | atom :: rest => fun h place => by
      rw [rewriteList]
      refine (unrefused_rewriteWith happly hbinds hnames atom h.1 _).bind fun newAtom hatom => ?_
      refine (unrefused_rewriteList happly hbinds hnames rest h.2 _).bind fun newRest hrest => ?_
      exact unrefused_value ⟨hatom, hrest⟩

theorem unrefused_rewriteOption (happly : KeepsStep n names apply)
    (hbinds : binds.All (Everywhere (InStep n names))) (hnames : binds.BindsOnly names) :
    ∀ value : Option Atom, OptionEverywhere (InStep n names) value → ∀ place,
    (rewriteOption apply binds place value).Unrefused n fun new =>
      OptionEverywhere (InStep n names) new.value
  | none => fun _ place => by
      rw [rewriteOption]
      exact unrefused_value trivial
  | some atom => fun h place => by
      rw [rewriteOption]
      exact (unrefused_rewriteWith happly hbinds hnames atom h _).bind fun newAtom hatom =>
        unrefused_value hatom

theorem unrefused_rewriteProperties (happly : KeepsStep n names apply)
    (hbinds : binds.All (Everywhere (InStep n names))) (hnames : binds.BindsOnly names) :
    ∀ properties : PropertySet Atom, PropertiesEverywhere (InStep n names) properties → ∀ place,
    (rewriteProperties apply binds place properties).Unrefused n fun new =>
      PropertiesEverywhere (InStep n names) new.value
  | ⟨a, c, i, b, d⟩ => fun h place => by
      rw [rewriteProperties]
      split
      · exact unrefused_value h
      · refine (unrefused_rewriteOption happly hbinds hnames a h.1 _).bind fun newA ha => ?_
        refine (unrefused_rewriteOption happly hbinds hnames c h.2.1 _).bind fun newC hc => ?_
        refine (unrefused_rewriteOption happly hbinds hnames i h.2.2.1 _).bind fun newI hi => ?_
        refine (unrefused_rewriteOption happly hbinds hnames b h.2.2.2.1 _).bind fun newB hb => ?_
        refine (unrefused_rewriteOption happly hbinds hnames d h.2.2.2.2 _).bind fun newD hd => ?_
        split
        · refine unrefused_checked.bind fun legal hlegal => ?_
          rw [← eq_of_checked hlegal]
          exact unrefused_value ⟨ha, hc, hi, hb, hd⟩
        · exact unrefused_value h

end

/-- Evaluation keeps atoms in step, under bindings of atoms in step to names of the given kind. -/
def EvaluatesInStep (n : String) (names : String → Prop) (evaluate : GuardEvaluator) : Prop :=
  ∀ binds atom, binds.All (Everywhere (InStep n names)) → binds.BindsOnly names →
    atom.Everywhere (InStep n names) →
      (evaluate binds atom).Unrefused n (Everywhere (InStep n names))

theorem evaluatesInStep_guardEvaluator (happly : KeepsStep n names apply) (place : Place) :
    EvaluatesInStep n names (guardEvaluator apply place) :=
  fun _ atom hbinds hnames hatom =>
    (unrefused_rewriteWith happly hbinds hnames atom hatom place).andThen fun _ hnew =>
      unrefused_value hnew

end Atom

/-!
## Applying operators

Arguments that do not match the parameters are no refusal, and neither is an illegal property set.
-/

def Natives.KeepStep (n : String) (names : String → Prop) (natives : Natives) : Prop :=
  ∀ key call atom, (Atom.operator call.operator .new).Everywhere (Atom.InStep n names) →
    (Atom.sequence call.arguments .new).Everywhere (Atom.InStep n names) →
      call.bound.All (Atom.Everywhere (Atom.InStep n names)) →
        natives key call = some atom → atom.Everywhere (Atom.InStep n names)

namespace Operator

open Atom

variable {n : String} {names : String → Prop} {natives : Natives} {evaluate : GuardEvaluator}
  {op : Operator Atom}

theorem eq_mismatch_of_mismatch? {requested : Properties} {e : TermError}
    (h : op.mismatch? requested = some e) :
    ∃ law value declared, e = .mismatch op.name law value declared := by
  rcases List.exists_of_findSome?_eq_some h with ⟨entry, -, hentry⟩
  simp only at hentry
  split at hentry
  · cases hentry
  · cases hentry
    exact ⟨_, _, _, rfl⟩

theorem unrefused_arguments {argument : Atom} {mark : Mark}
    (hrequests : Requests n (.operator op mark) argument) :
    (op.arguments argument).Unrefused n fun _ => True := by
  cases argument with
  | sequence s listMark =>
      unfold arguments
      simp only
      split
      · rename_i e hmismatch
        refine unrefused_error fun law requested declared heq => ?_
        rcases eq_mismatch_of_mismatch? hmismatch with ⟨_, _, _, hrefused⟩
        -- only an operator of the name could have refused so, and it does not
        rw [heq] at hrefused
        injection hrefused with hname
        have haccepted : op.mismatch? s.properties = none := by
          refine mismatch?_of_carries ((hrequests hname.symm).imp ?_ ?_) <;>
            exact fun ⟨_, _, hlist, hcarried⟩ => by cases hlist; exact hcarried
        rw [haccepted] at hmismatch
        cases hmismatch
      · exact unrefused_value trivial
  | _ => exact unrefused_value trivial

section

variable (hevaluate : EvaluatesInStep n names evaluate)
include hevaluate

theorem unrefused_copies {name : String} {type : Atom} {guard : Option Atom}
    (hname : guard.isSome = true → names name) (htype : type.Everywhere (InStep n names))
    (hguard : OptionEverywhere (InStep n names) guard) (copy count : Nat) :
    (copies evaluate name type guard copy count).Unrefused n fun _ => True := by
  induction count generalizing copy with
  | zero => exact unrefused_value trivial
  | succ count ih =>
      cases guard with
      | none => exact (ih (copy + 1)).bind fun _ _ => unrefused_value trivial
      | some condition =>
          have hfree : (Atom.free (name ++ "#" ++ Number.natText copy) type).Everywhere
              (InStep n names) := ⟨trivial, htype, trivial⟩
          have hrenamed := hevaluate _ condition (NameMap.all_empty.insert hfree)
            (NameMap.bindsOnly_empty.insert (hname rfl) _) hguard
          refine hrenamed.bind fun renamed _ =>
            Unrefused.bind (p := fun _ => True) (unrefused_value trivial) fun copyGuard _ => ?_
          exact (ih (copy + 1)).bind fun _ _ => unrefused_value trivial

theorem unrefused_paddedParameters {mark : Mark}
    (hop : (Atom.operator op mark).Everywhere (InStep n names)) (arity : Nat) :
    (op.paddedParameters evaluate arity).Unrefused n fun _ => True := by
  unfold paddedParameters
  split
  · exact unrefused_value trivial
  · rename_i name type guard index varMark hlast
    have hmem := List.mem_of_getLast? hlast
    have hvar := listEverywhere_iff.mp hop.parameters _ hmem
    have hname : guard.isSome = true → names name := by
      intro hsome
      rcases Option.isSome_iff_exists.mp hsome with ⟨condition, rfl⟩
      have hstep : (Atom.operator op mark).InStep n names := by
        rcases op with ⟨name, properties, parameters, resultType, native⟩
        exact hop.1
      exact hstep.2 _ hmem name rfl
    exact (unrefused_copies hevaluate hname hvar.2.1 hvar.2.2 _ _).bind fun _ _ =>
      unrefused_value trivial
  · exact unrefused_error fun _ _ _ h => by cases h

end

theorem unrefused_dispatch (parameters list : List Atom) :
    (op.dispatch natives evaluate parameters list).Unrefused n fun _ => True := by
  unfold dispatch
  refine Unrefused.bind (p := fun _ => True)
    (unrefused_first (fun _ _ => trivial) fun _ _ _ _ h => by cases h) fun bound _ => ?_
  unfold evaluateCall
  split
  · exact (unrefused_value trivial).noted
  · exact unrefused_value trivial

variable {mark : Mark} (hop : (Atom.operator op mark).Everywhere (InStep n names))
include hop

theorem yields_dispatch (hnatives : natives.KeepStep n names) {parameters list : List Atom}
    (h : ∀ atom ∈ list, atom.Everywhere (InStep n names)) :
    (op.dispatch natives evaluate parameters list).Yields (Everywhere (InStep n names)) := by
  have hoperator : (Atom.operator op .new).Everywhere (InStep n names) := by
    cases op
    exact hop
  have harguments : (Atom.sequence (.ofList op.properties list) .new).Everywhere
      (InStep n names) :=
    ⟨trivial, hop.properties, listEverywhere_normalize (listEverywhere_iff.mpr h)⟩
  unfold dispatch
  refine (all_bindParameters inherited_inStep h).bind fun bound hbound => ?_
  unfold evaluateCall
  split
  · rename_i result hresult
    rcases Option.bind_eq_some_iff.mp hresult with ⟨key, -, hnative⟩
    exact Yields.noted (yields_value (hnatives key _ result hoperator harguments hbound hnative))
  · exact yields_value ⟨fun _ => ⟨_, _, rfl, rfl⟩, hoperator, harguments⟩

/-- An operator in step, applied to a list that carries what it declares or nothing, refuses no
request and keeps atoms in step. -/
theorem unrefused_applyWith (hnatives : natives.KeepStep n names)
    (hevaluate : EvaluatesInStep n names evaluate) {argument : Atom}
    (hrequests : Requests n (.operator op mark) argument)
    (h : argument.Everywhere (InStep n names)) :
    (op.applyWith natives evaluate argument).Unrefused n (Everywhere (InStep n names)) where
  yields := yields_applyWith (passedOn_everywhere _) hop (yields_dispatch hop hnatives) h
  error := by
    have happlied : (op.applyWith natives evaluate argument).Unrefused n fun _ => True := by
      unfold applyWith
      refine (unrefused_arguments hrequests).bind fun list _ => ?_
      split
      · unfold applyAssociative
        simp only
        split
        · exact (unrefused_value trivial).noted
        · split
          · exact (unrefused_value trivial).noted
          · exact (unrefused_value trivial).noted
          · exact (unrefused_paddedParameters hevaluate hop _).bind fun parameters _ =>
              unrefused_dispatch parameters _
      · exact unrefused_dispatch _ list
    exact happlied.error

end Operator

/-!
## Applying lambdas

What a parameter is matched with is bound to its name, or to a name in its type, so what a lambda
puts into its body does not touch the laws of the lists there.
-/

namespace Atom

variable {n : String} {names : String → Prop} {natives : Natives} {evaluate : GuardEvaluator}

theorem bindsOnly_of_mem_matchWith {key : String} {type : Atom} {guard : Option Atom}
    (hkey : names key) (htype : type.Everywhere (Named names)) {subject : Atom} {found : Bindings}
    (hfound : found ∈
      (matchWith evaluate (var key type guard 0 .new) subject .empty).alternatives) :
    found.BindsOnly names := by
  have hclosed := (invariant_gains names).closedUnderBinding evaluate
  have hmeets : ∀ v, (var key type guard 0 .new).Meets v →
      v.HoldsFree evaluate (fun _ => True) (Search.Keeps fun binds found =>
        binds.Extends found ∧ binds.Gains names found) := by
    intro v hv
    refine holdsFree_of_condition hclosed fun name vType vGuard mark heq => ?_
    rcases meets_var_iff.mp hv with hself | hv
    · cases hself.symm.trans heq
      exact hkey
    · have hnamed := hv.everywhere htype
      rw [heq] at hnamed
      exact hnamed.1
  have hsearch := holds_search_of_meets hclosed.toClosed _ hmeets
  have hgains := (Matcher.holds_watched hclosed.toClosed hsearch subject trivial .empty found
    hfound).2
  intro name hname
  exact (hgains name hname).resolve_left fun hempty => by cases hempty

theorem bindsOnly_marked {binds : Bindings} (h : binds.BindsOnly names) (place : Place) :
    (binds.marked place).BindsOnly names := by
  intro key hkey
  refine h key ?_
  have hagree := (NameMap.agree_marked (f := id) place binds).find? key
  rw [NameMap.contains] at hkey ⊢
  cases hfind : binds.find? key with
  | some atom => rfl
  | none =>
      rw [hfind] at hagree
      cases hmarked : (binds.marked place).find? key with
      | none =>
          rw [hmarked] at hkey
          cases hkey
      | some atom =>
          rw [hmarked] at hagree
          cases hagree

/-- A lambda in step keeps atoms in step: what it puts into its body is bound by matching its
argument. -/
theorem unrefused_applyLambda (hevaluate : EvaluatesInStep n names evaluate) {place : Place}
    {parameter body argument : Atom} (hparameter : parameter.BindsNamed names)
    (hbody : body.Everywhere (InStep n names)) (hargument : argument.Everywhere (InStep n names)) :
    (applyLambda evaluate place parameter body argument).Unrefused n
      (Everywhere (InStep n names)) := by
  cases parameter with
  | var key type guard index mark =>
      have hmarked : (argument.marked (3 :: place)).Everywhere (InStep n names) :=
        everywhere_inStep_of_like (like_marked (f := id) _ argument).symm hargument
      unfold applyLambda
      refine (unrefused_first (q := fun found => found.All (Everywhere (InStep n names)) ∧
        found.BindsOnly names) (fun found hfound => ?_) fun _ _ _ _ h => by cases h).andThen
          fun binds h => ?_
      · exact ⟨all_of_mem_search inherited_inStep hmarked NameMap.all_empty hfound,
          bindsOnly_of_mem_matchWith hparameter.1 hparameter.2 hfound⟩
      · exact hevaluate _ _ (all_marked everywhere_inStep_of_like h.1) (bindsOnly_marked h.2 _)
          hbody
  | _ => exact unrefused_error fun _ _ _ h => by cases h

/-- Application keeps atoms in step, by induction on how deep applications may be nested. -/
theorem keepsStep_applyWithin (hnatives : natives.KeepStep n names) (nesting : Nat) :
    KeepsStep n names (applyWithin natives nesting) := by
  induction nesting with
  | zero => exact fun _ _ _ _ _ _ => unrefused_error fun _ _ _ h => by cases h
  | succ nesting ih =>
      intro place head argument hrequests hhead hargument
      have hevaluate := evaluatesInStep_guardEvaluator ih (2 :: place)
      cases head with
      | operator op mark =>
          exact Operator.unrefused_applyWith hhead hnatives hevaluate hrequests hargument
      | lambda parameter body mark =>
          exact unrefused_applyLambda hevaluate hhead.1 hhead.2.2 hargument
      | _ => exact unrefused_value ⟨hrequests, hhead, hargument⟩

end Atom

/-!
## Applications that are rewritten
-/

namespace Engine

open Atom

/-- An application of an operator is rewritten without a refusal by an operator of its name, and if
the result is an application of such an operator, then the list in it carries what that declares;
provided that everything is in step and none of the names that are bound occurs in the declared
properties. -/
theorem rewrite_applied {engine : Engine} {op : Operator Atom} {mark : Mark}
    {argument applied : Atom} {binds : Bindings} {names : String → Prop}
    (hnatives : engine.natives.KeepStep op.name names)
    (hop : (Atom.operator op mark).Everywhere (InStep op.name names))
    (hargument : argument.Everywhere (InStep op.name names))
    (happlied : (engine.apply (.operator op mark) argument).result = .ok applied)
    (hbinds : binds.All (Everywhere (InStep op.name names))) (hnames : binds.BindsOnly names) :
    (∀ law requested declared, (engine.rewrite binds applied).result ≠
      .error (.mismatch op.name law requested declared)) ∧
    ∀ new, (engine.rewrite binds applied).result = .ok new →
      ∀ other otherMark list bound newMark,
        new.value = .application (.operator other otherMark) list bound newMark →
          other.name = op.name → list.Carries other.properties := by
  have hstep : applied.Everywhere (InStep op.name names) := by
    rcases exists_of_applyAt_ok happlied with ⟨evaluate, hwith⟩
    exact Operator.yields_applyWith (passedOn_everywhere _) hop
      (Operator.yields_dispatch hop hnatives) hargument applied hwith
  have hrewritten := unrefused_rewriteWith
    (keepsStep_applyWithin hnatives engine.nesting) hbinds hnames applied hstep engine.place
  refine ⟨hrewritten.error, fun new hnew other otherMark list bound newMark hvalue hname => ?_⟩
  have happlication := hrewritten.yields new hnew
  rw [hvalue] at happlication
  exact happlication.1 hname

def commuting : Operator Atom :=
  ⟨"f", ⟨none, some (.free "c" .any), none, none, none⟩, [.free "x" .any, .free "y" .any],
    none, none⟩

def openArguments : Atom := .sequence (.plain [.free "u" .any, .integer 2]) .new

theorem rewrite_applied_open :
    (∀ names, idle.natives.KeepStep "f" names) ∧
    (Atom.operator commuting .new).Everywhere (InStep "f" (· = "u")) ∧
    openArguments.Everywhere (InStep "f" (· = "u")) ∧
    (NameMap.empty.insert "u" (.integer 1)).All (Everywhere (InStep "f" (· = "u"))) ∧
    (NameMap.empty.insert "u" (.integer 1)).BindsOnly (· = "u") ∧
    ∃ applied, (idle.apply (.operator commuting .new) openArguments).result = .ok applied ∧
      (∀ law requested declared,
        (idle.rewrite (NameMap.empty.insert "u" (.integer 1)) applied).result ≠
          .error (.mismatch "f" law requested declared)) ∧
      ∀ new, (idle.rewrite (NameMap.empty.insert "u" (.integer 1)) applied).result = .ok new →
        ∀ other otherMark list bound newMark,
          new.value = .application (.operator other otherMark) list bound newMark →
            other.name = "f" → list.Carries other.properties := by
  have hnatives : ∀ names, idle.natives.KeepStep "f" names := by
    intro names key call atom _ _ _ hatom
    cases hatom
  have hop : (Atom.operator commuting .new).Everywhere (InStep "f" (· = "u")) := by
    simp [commuting, Everywhere, ListEverywhere, OptionEverywhere, PropertiesEverywhere, InStep,
      Named, guardedName?, free, Atom.any]
  have hargument : openArguments.Everywhere (InStep "f" (· = "u")) := by
    refine ⟨trivial, ?_, listEverywhere_normalize ?_⟩
    · exact ⟨trivial, trivial, trivial, trivial, trivial⟩
    · simp [Everywhere, ListEverywhere, OptionEverywhere, InStep, free, integer,
        ofLiteral, Atom.any]
  have hbinds : (NameMap.empty.insert "u" (.integer 1)).All (Everywhere (InStep "f" (· = "u"))) :=
    NameMap.all_empty.insert (by simp [Everywhere, InStep, integer, ofLiteral])
  have hempty : NameMap.empty.BindsOnly (· = "u") := NameMap.bindsOnly_empty
  have hnames : (NameMap.empty.insert "u" (.integer 1)).BindsOnly (· = "u") :=
    hempty.insert rfl _
  have hok : ((idle.apply (.operator commuting .new) openArguments).result.toOption.any
      fun _ => true) = true := by
    decide +kernel
  rcases exists_result_of_any hok with ⟨applied, happlied, -⟩
  exact ⟨hnatives, hop, hargument, hbinds, hnames, applied, happlied,
    rewrite_applied (hnatives _) hop hargument happlied hbinds hnames⟩

def refusedBy? {α : Type} : Except TermError α → Option String
  | .error (.mismatch name ..) => some name
  | _ => none

theorem exists_mismatch {α : Type} {x : Except TermError α} {n : String}
    (h : refusedBy? x = some n) : ∃ law requested declared,
      x = .error (.mismatch n law requested declared) := by
  unfold refusedBy? at h
  split at h
  case h_1 name law requested declared =>
    cases h
    exact ⟨law, requested, declared, rfl⟩
  case h_2 => cases h

/-- The properties of an operator are left as they are, those of the list that was made for it
are not. -/
theorem rewrite_applied_refused :
    ∃ applied law requested declared,
      (idle.apply (.operator commuting .new)
        (.sequence (.plain [.integer 1, .integer 2]) .new)).result = .ok applied ∧
      (idle.rewrite (NameMap.empty.insert "c" (.boolean true)) applied).result =
        .error (.mismatch "f" law requested declared) := by
  have hok : ((idle.apply (.operator commuting .new)
      (.sequence (.plain [.integer 1, .integer 2]) .new)).result.toOption.any fun applied =>
        refusedBy? (idle.rewrite (NameMap.empty.insert "c" (.boolean true)) applied).result ==
          some "f") = true := by
    decide +kernel
  rcases exists_result_of_any hok with ⟨applied, happlied, hrefused⟩
  rcases exists_mismatch (eq_of_beq hrefused) with ⟨law, requested, declared, herror⟩
  exact ⟨applied, law, requested, declared, happlied, herror⟩

end Engine

end Equational
