import Equational.Operator.Application
import Equational.Proofs.Extension
import Equational.Proofs.WellMade

/-!
# What evaluation keeps

Rewriting takes an atom apart and puts it together again from its rewritten
parts.  A condition that survives each of these steps survives rewriting, and
where application keeps it as well, it holds of everything that an engine makes.
-/

namespace Equational

open Atom

/-!
## Values of evaluations
-/

namespace Evaluation

variable {α β : Type} {p : α → Prop} {q : β → Prop}

def Yields (p : α → Prop) (evaluation : Evaluation α) : Prop :=
  ∀ a, evaluation.result = .ok a → p a

theorem yields_value {a : α} (h : p a) : (value a).Yields p := by
  intro b hb
  cases hb
  exact h

theorem yields_error (e : TermError) : (error e : Evaluation α).Yields p := by
  intro a h
  cases h

theorem Yields.andThen {first : Evaluation α} {next : α → Evaluation β} (h : first.Yields p)
    (hnext : ∀ a, p a → (next a).Yields q) : (first.andThen next).Yields q := by
  intro b hb
  rcases (result_andThen_eq_ok_iff first next b).mp hb with ⟨a, ha, hb⟩
  exact hnext a (h a ha) b hb

theorem Yields.and {evaluation : Evaluation α} {p' : α → Prop} (h : evaluation.Yields p)
    (h' : evaluation.Yields p') : evaluation.Yields fun a => p a ∧ p' a :=
  fun a ha => ⟨h a ha, h' a ha⟩

theorem Yields.bind {first : Evaluation α} {next : α → Evaluation β} (h : first.Yields p)
    (hnext : ∀ a, p a → (next a).Yields q) : (first >>= next).Yields q :=
  h.andThen hnext

theorem Yields.andThen_congr {first : Evaluation α} {next next' : α → Evaluation β}
    (h : first.Yields p) (hnext : ∀ a, p a → next a = next' a) :
    first.andThen next = first.andThen next' := by
  unfold Evaluation.andThen
  cases hresult : first.result with
  | error e => rfl
  | ok a => simp only [hnext a (h a hresult)]

theorem Yields.bind_congr {first : Evaluation α} {next next' : α → Evaluation β}
    (h : first.Yields p) (hnext : ∀ a, p a → next a = next' a) :
    (first >>= next) = (first >>= next') :=
  h.andThen_congr hnext

theorem Yields.noted {notice : Notice} {next : Evaluation β} (h : next.Yields q) :
    (note notice >>= fun _ => next).Yields q :=
  @Yields.bind _ _ (fun _ => True) _ _ _ (fun _ _ => trivial) fun _ _ => h

end Evaluation

open Evaluation

/-!
## Rewriting

The induction is over the atom that is rewritten.  A condition is kept if it may be the same
before and after rewriting.
-/

namespace Atom

variable {p q : Atom → Prop}

/-- What rewriting has to make sure of, step by step, so that a condition on all parts of an atom
gives another condition on all parts of what becomes of it.  What becomes of the parts is told by
rewriting them. -/
structure Turns (apply : Place → Atom → Atom → Evaluation Atom) (binds : Bindings)
    (p q : Atom → Prop) : Prop where
  same : ∀ {atom}, p atom → q atom
  new : ∀ {atom}, p atom → p (atom.withMark .new)
  properties : ∀ {s mark}, p (sequence s mark) → p (propertySet s.properties .new)
  var : ∀ {name type guard index mark place}, index = 0 → p (var name type guard index mark) →
    type.Everywhere p → OptionEverywhere p guard →
    (rewriteWith apply binds (0 :: place) type).Yields fun newType =>
      (rewriteOption apply binds (1 :: place) guard).Yields fun newGuard =>
        q (var name newType.value newGuard.value 0 .new)
  lambda : ∀ {parameter body mark place}, p (lambda parameter body mark) → body.Everywhere p →
    (rewriteWith apply binds (0 :: place) body).Yields fun newBody =>
      q (lambda parameter newBody.value .new)
  ofList : ∀ {properties list}, q (propertySet properties .new) →
    q (sequence (.ofList properties list) .new)
  checked : ∀ {properties legal : Properties}, properties.checked = .ok legal →
    q (propertySet legal .new)
  apply : ∀ {head argument bound mark place}, p (application head argument bound mark) →
    head.Everywhere p → argument.Everywhere p →
    (rewriteWith apply binds (0 :: place) head).Yields fun newHead =>
      (rewriteWith apply binds (1 :: place) argument).Yields fun newArgument =>
        newHead.value.Everywhere q → newArgument.value.Everywhere q →
          (apply place newHead.value newArgument.value).Yields (Everywhere q)

theorem yields_checked {properties : Properties} :
    (ofExcept (properties.checked.mapError TermError.property)).Yields fun legal =>
      properties.checked = .ok legal := by
  intro legal hlegal
  cases hchecked : properties.checked with
  | error error =>
      rw [hchecked] at hlegal
      cases hlegal
  | ok other =>
      rw [hchecked] at hlegal
      cases hlegal
      rfl

section

variable {apply : Place → Atom → Atom → Evaluation Atom} {binds : Bindings}

theorem Turns.everywhere (hturns : Turns apply binds p q) {atom : Atom} (h : atom.Everywhere p) :
    atom.Everywhere q :=
  everywhere_imp (fun _ => hturns.same) atom h

mutual

/-- Rewriting turns a condition on all parts of an atom into another one, if all bound atoms satisfy
the latter. -/
theorem turned_rewriteWith (hturns : Turns apply binds p q) (hbinds : binds.All (Everywhere q)) :
    ∀ atom : Atom, atom.Everywhere p → ∀ place,
    (rewriteWith apply binds place atom).Yields fun new => new.value.Everywhere q
  | typeUniverse mark => fun h place => by
      rw [rewriteWith]
      exact yields_value (hturns.same h)
  | root name mark => fun h place => by
      rw [rewriteWith]
      exact yields_value (hturns.same h)
  | literal value type mark => fun h place => by
      rw [rewriteWith]
      exact yields_value (hturns.everywhere h)
  | operator op mark => fun h place => by
      rw [rewriteWith]
      exact yields_value (hturns.everywhere h)
  | var name type guard index mark => fun h place => by
      have hsame := hturns.everywhere h
      rw [rewriteWith]
      split
      · exact yields_value hsame
      · split
        · rename_i atom hfind
          exact yields_value (hbinds name atom hfind)
        · split
          · exact yields_value hsame
          · rename_i hindex
            have hzero : index = 0 := by simpa using hindex
            refine ((hturns.var hzero h.1 h.2.1 h.2.2).and
              (turned_rewriteWith hturns hbinds type h.2.1 _)).bind fun newType htype => ?_
            refine (htype.1.and (turned_rewriteOption hturns hbinds guard h.2.2 _)).bind
              fun newGuard hguard => ?_
            split
            · exact yields_value ⟨hguard.1, htype.2, hguard.2⟩
            · exact yields_value hsame
  | lambda parameter body mark => fun h place => by
      have hsame := hturns.everywhere h
      rw [rewriteWith]
      split
      · exact yields_value hsame
      · refine ((hturns.lambda h.1 h.2.2).and
          (turned_rewriteWith hturns hbinds body h.2.2 _)).bind fun newBody hbody => ?_
        split
        · exact yields_value ⟨hbody.1, hsame.2.1, hbody.2⟩
        · exact yields_value hsame
  | sequence ⟨properties, elements⟩ mark => fun h place => by
      rw [rewriteWith]
      refine (turned_rewriteSequence hturns hbinds ⟨properties, elements⟩ (hturns.new h.1)
        h.2 _).bind fun new hnew => ?_
      split
      · exact yields_value hnew
      · exact yields_value
          (hturns.everywhere h)
  | propertySet properties mark => fun h place => by
      rw [rewriteWith]
      refine (turned_rewriteProperties hturns hbinds properties (hturns.new h.1) h.2 _).bind
        fun new hnew => ?_
      split
      · exact yields_value hnew
      · exact yields_value
          (hturns.everywhere h)
  | application head argument bound mark => fun h place => by
      have hsame := hturns.everywhere h
      rw [rewriteWith]
      split
      · exact yields_value hsame
      · refine ((hturns.apply h.1 h.2.1 h.2.2).and
          (turned_rewriteWith hturns hbinds head h.2.1 _)).bind fun newHead hhead => ?_
        refine (hhead.1.and (turned_rewriteWith hturns hbinds argument h.2.2 _)).bind
          fun newArgument hargument => ?_
        split
        · exact (hargument.1 hhead.2 hargument.2).bind fun applied happlied =>
            yields_value happlied
        · exact yields_value hsame

theorem turned_rewriteSequence (hturns : Turns apply binds p q)
    (hbinds : binds.All (Everywhere q)) : ∀ s : Sequence Atom, p (sequence s .new) →
    PropertiesEverywhere p s.properties ∧ ListEverywhere p s.elements → ∀ place,
    (rewriteSequence apply binds place s).Yields fun new => (sequence new.value .new).Everywhere q
  | ⟨properties, elements⟩ => fun hsequence h place => by
      have hsame : (sequence ⟨properties, elements⟩ .new).Everywhere q :=
        hturns.everywhere ⟨hsequence, h⟩
      rw [rewriteSequence]
      split
      · exact yields_value hsame
      · refine (turned_rewriteProperties hturns hbinds properties (hturns.properties hsequence)
          h.1 _).bind fun newProperties hproperties => ?_
        refine (turned_rewriteList hturns hbinds elements h.2 _).bind
          fun newElements helements => ?_
        split
        · exact yields_value ⟨hturns.ofList hproperties.1, hproperties.2,
            listEverywhere_normalize helements⟩
        · exact yields_value hsame

theorem turned_rewriteList (hturns : Turns apply binds p q) (hbinds : binds.All (Everywhere q)) :
    ∀ list : List Atom, ListEverywhere p list → ∀ place,
    (rewriteList apply binds place list).Yields fun new => ListEverywhere q new.value
  | [] => fun _ place => by
      rw [rewriteList]
      exact yields_value trivial
  | atom :: rest => fun h place => by
      rw [rewriteList]
      refine (turned_rewriteWith hturns hbinds atom h.1 _).bind fun newAtom hatom => ?_
      refine (turned_rewriteList hturns hbinds rest h.2 _).bind fun newRest hrest => ?_
      exact yields_value ⟨hatom, hrest⟩

theorem turned_rewriteOption (hturns : Turns apply binds p q) (hbinds : binds.All (Everywhere q)) :
    ∀ value : Option Atom, OptionEverywhere p value → ∀ place,
    (rewriteOption apply binds place value).Yields fun new => OptionEverywhere q new.value
  | none => fun _ place => by
      rw [rewriteOption]
      exact yields_value trivial
  | some atom => fun h place => by
      rw [rewriteOption]
      refine (turned_rewriteWith hturns hbinds atom h _).bind fun newAtom hatom => ?_
      exact yields_value hatom

theorem turned_rewriteProperties (hturns : Turns apply binds p q)
    (hbinds : binds.All (Everywhere q)) :
    ∀ properties : PropertySet Atom, p (propertySet properties .new) →
    PropertiesEverywhere p properties → ∀ place,
    (rewriteProperties apply binds place properties).Yields fun new =>
      (propertySet new.value .new).Everywhere q
  | ⟨a, c, i, b, d⟩ => fun hset h place => by
      have hsame : (propertySet ⟨a, c, i, b, d⟩ .new).Everywhere q :=
        hturns.everywhere ⟨hset, h⟩
      rw [rewriteProperties]
      split
      · exact yields_value hsame
      · refine (turned_rewriteOption hturns hbinds a h.1 _).bind fun newA ha => ?_
        refine (turned_rewriteOption hturns hbinds c h.2.1 _).bind fun newC hc => ?_
        refine (turned_rewriteOption hturns hbinds i h.2.2.1 _).bind fun newI hi => ?_
        refine (turned_rewriteOption hturns hbinds b h.2.2.2.1 _).bind fun newB hb => ?_
        refine (turned_rewriteOption hturns hbinds d h.2.2.2.2 _).bind fun newD hd => ?_
        split
        · refine yields_checked.bind fun legal hlegal => yields_value ⟨hturns.checked hlegal, ?_⟩
          rw [← eq_of_checked hlegal]
          exact ⟨ha, hc, hi, hb, hd⟩
        · exact yields_value hsame

end

/-- What rewriting has to make sure of, step by step, in order to keep a condition on all parts of
an atom.  The condition may speak of the heads of applications, which are rewritten themselves. -/
structure Kept (apply : Place → Atom → Atom → Evaluation Atom) (p : Atom → Prop) : Prop where
  new : ∀ {atom}, p atom → p (atom.withMark .new)
  var : ∀ {name type guard index mark newType newGuard}, p (var name type guard index mark) →
    p (var name newType newGuard 0 .new)
  lambda : ∀ {parameter body mark newBody}, p (lambda parameter body mark) →
    p (lambda parameter newBody .new)
  properties : ∀ {s mark}, p (sequence s mark) → p (propertySet s.properties .new)
  ofList : ∀ {properties list}, p (propertySet properties .new) →
    p (sequence (.ofList properties list) .new)
  checked : ∀ {properties legal : Properties}, properties.checked = .ok legal →
    p (propertySet legal .new)
  head : ∀ {head argument bound mark binds place}, p (application head argument bound mark) →
    head.Everywhere p → (rewriteWith apply binds place head).Yields fun new =>
      ∀ newArgument, p (application new.value newArgument .empty .new)
  apply : ∀ {place head argument}, p (application head argument .empty .new) →
    head.Everywhere p → argument.Everywhere p → (apply place head argument).Yields (Everywhere p)

theorem Kept.turns (hkept : Kept apply p) : Turns apply binds p p where
  same h := h
  new := hkept.new
  properties := hkept.properties
  var _ h _ _ := fun _ _ _ _ => hkept.var h
  lambda h _ := fun _ _ => hkept.lambda h
  ofList := hkept.ofList
  checked := hkept.checked
  apply h hhead _ := fun newHead hnew newArgument _ hhead' hargument' =>
    hkept.apply (hkept.head h hhead newHead hnew newArgument.value) hhead' hargument'

theorem everywhere_rewriteWith (hkept : Kept apply p) (hbinds : binds.All (Everywhere p))
    (atom : Atom) (h : atom.Everywhere p) (place : Place) :
    (rewriteWith apply binds place atom).Yields fun new => new.value.Everywhere p :=
  turned_rewriteWith hkept.turns hbinds atom h place

end

end Atom

/-- Evaluation keeps a condition on all parts of an atom, if all bound atoms satisfy it. -/
def GuardEvaluator.Keeps (evaluate : GuardEvaluator) (p : Atom → Prop) : Prop :=
  ∀ binds atom, binds.All (Everywhere p) → atom.Everywhere p →
    (evaluate binds atom).Yields (Everywhere p)

/-- Atoms are evaluated by rewriting them at a place. -/
def Atom.guardEvaluator (apply : Place → Atom → Atom → Evaluation Atom) (place : Place) :
    GuardEvaluator := fun binds atom =>
  (rewriteWith apply binds place atom).andThen fun new => .value new.value

theorem Atom.Kept.keeps {apply : Place → Atom → Atom → Evaluation Atom} {p : Atom → Prop}
    (h : Kept apply p) (place : Place) : (guardEvaluator apply place).Keeps p :=
  fun _ atom hbinds hatom => (everywhere_rewriteWith h hbinds atom hatom place).andThen
    fun _ hnew => yields_value hnew

/-!
## Application

Simplification only leaves out arguments, so an associative operator gives back one of its laws,
an argument, or an application to some of them.
-/

/-- A condition that sequences pass on to their elements, applications to their arguments and
operators to their laws: to all that applying an operator may give back. -/
structure Atom.PassedOn (q : Atom → Prop) : Prop where
  element {s : Sequence Atom} {mark : Mark} : q (.sequence s mark) → ∀ atom ∈ s.elements, q atom
  argument {head argument : Atom} {bound : Bindings} {mark : Mark} :
    q (.application head argument bound mark) → q argument
  law {op : Operator Atom} {mark : Mark} {law : Law} {atom : Atom} :
    q (.operator op mark) → op.properties.get law = some atom → q atom

theorem Atom.passedOn_everywhere (p : Atom → Prop) : PassedOn (Everywhere p) where
  element h := listEverywhere_iff.mp h.elements
  argument h := h.2.2
  law h := optionEverywhere_iff.mp (propertiesEverywhere_iff.mp h.properties _) _

namespace Operator

variable {op : Operator Atom} {evaluate : GuardEvaluator} {natives : Natives} {q : Atom → Prop}

theorem yields_arguments (hq : PassedOn q) {argument : Atom} (h : q argument) :
    (op.arguments argument).Yields fun list => ∀ atom ∈ list, q atom := by
  cases argument with
  | sequence s mark =>
      unfold arguments
      simp only
      split
      · exact yields_error _
      · exact yields_value (hq.element h)
  | _ => exact yields_value (List.forall_mem_singleton.mpr h)

theorem forall_mem_elements (hq : PassedOn q) {argument : Atom} (h : q argument) :
    ∀ atom ∈ argument.elements?.getD [argument], q atom := by
  cases argument with
  | sequence s mark => exact hq.element h
  | _ => exact List.forall_mem_singleton.mpr h

theorem forall_mem_flatten (hq : PassedOn q) {list : List Atom} (h : ∀ atom ∈ list, q atom) :
    ∀ atom ∈ op.flatten list, q atom := by
  intro atom hatom
  rcases List.mem_flatMap.mp hatom with ⟨whole, hwhole, hatom⟩
  have hall := h whole hwhole
  split at hatom
  · split at hatom
    · exact forall_mem_elements hq (hq.argument hall) atom hatom
    · rwa [List.mem_singleton.mp hatom]
  · rwa [List.mem_singleton.mp hatom]

theorem simplify_sublist (list : List Atom) : (op.simplify list).Sublist (op.flatten list) := by
  unfold simplify
  cases op.properties.identity with
  | none =>
      simp only
      split
      · exact distinct_sublist _
      · exact List.Sublist.refl _
  | some identity =>
      simp only
      split
      · exact (distinct_sublist _).trans List.filter_sublist
      · exact List.filter_sublist

theorem forall_mem_simplify (hq : PassedOn q) {list : List Atom} (h : ∀ atom ∈ list, q atom) :
    ∀ atom ∈ op.simplify list, q atom :=
  fun atom hatom => forall_mem_flatten hq h atom ((simplify_sublist list).subset hatom)

section

variable {mark : Mark} (hq : PassedOn q) (hop : q (Atom.operator op mark))
  (hdispatch : ∀ {parameters list}, (∀ atom ∈ list, q atom) →
    (op.dispatch natives evaluate parameters list).Yields q)
include hq hop hdispatch

/-- An associative operator gives back one of its laws or of its arguments, or what dispatching
gives. -/
theorem yields_applyAssociative {list : List Atom} (h : ∀ atom ∈ list, q atom) :
    (op.applyAssociative natives evaluate list).Yields q := by
  have harguments := @forall_mem_simplify op q hq list h
  unfold applyAssociative
  simp only
  split
  · rename_i absorber hfilter
    have habsorber : op.properties.get .absorber = some absorber :=
      Option.eq_some_of_filter_eq_some hfilter
    exact Yields.noted (yields_value (hq.law hop habsorber))
  · split
    · rename_i identity _ hidentity
      have hlaw : op.properties.get .identity = some identity := hidentity
      exact Yields.noted (yields_value (hq.law hop hlaw))
    · rename_i argument _ hsimplify
      rw [hsimplify] at harguments
      exact Yields.noted (yields_value (List.forall_mem_singleton.mp harguments))
    · intro atom hatom
      rcases (result_bind_eq_ok_iff _ _ _).mp hatom with ⟨parameters, -, hatom⟩
      exact hdispatch harguments atom hatom

theorem yields_applyWith {argument : Atom} (h : q argument) :
    (op.applyWith natives evaluate argument).Yields q := by
  unfold applyWith
  refine (yields_arguments hq h).bind fun list hlist => ?_
  split
  · exact yields_applyAssociative hq hop hdispatch hlist
  · exact hdispatch hlist

end

end Operator

end Equational
