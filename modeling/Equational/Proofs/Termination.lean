import Equational.Natives
import Equational.Proofs.RigidHeads

/-!
# When evaluation finishes

Guards and applications call application again, one call inside another.  How
deep calls are nested is bounded in an engine, where the bound is an error.  An
evaluation finishes if its outcome is the same whatever stands in the place of
the calls below some depth.

It need not finish: what a lambda is applied to may end up at the head of
another application.  It does finish for atoms whose heads are rigid, no matter
what is bound, applied to or matched.
-/

namespace Equational

open Evaluation

namespace Atom

/-!
## Nested calls
-/

/-- Applies a head to an argument at a place, given what to do with the calls that are nested
deeper than a number. -/
def applyOver (natives : Natives) (deeper : Place → Atom → Atom → Evaluation Atom) :
    Nat → Place → Atom → Atom → Evaluation Atom
  | 0 => deeper
  | nesting + 1 => fun place =>
    applyWith natives (guardEvaluator (applyOver natives deeper nesting) (2 :: place)) place

theorem applyOver_error (natives : Natives) (nesting : Nat) :
    applyOver natives (fun _ _ _ => .error .nesting) nesting = applyWithin natives nesting := by
  induction nesting with
  | zero => rfl
  | succ nesting ih =>
      funext place head argument
      rw [applyOver, ih]
      rfl

/-- The outcome of some work does not depend on calls that are nested deeper than a number. -/
def FinishesWithin {α : Type} (natives : Natives) (nesting : Nat)
    (work : (Place → Atom → Atom → Evaluation Atom) → α) : Prop :=
  ∀ n ≥ nesting, ∀ deeper, work (applyOver natives deeper n) = work (applyWithin natives nesting)

theorem FinishesWithin.agree {α : Type} {natives : Natives} {nesting n n' : Nat}
    {work : (Place → Atom → Atom → Evaluation Atom) → α} (h : FinishesWithin natives nesting work)
    (hn : nesting ≤ n) (hn' : nesting ≤ n') :
    work (applyWithin natives n) = work (applyWithin natives n') := by
  rw [← applyOver_error natives n, ← applyOver_error natives n', h n hn, h n' hn']

/-- Some work finishes within some number of calls inside one another. -/
def Finishes {α : Type} (natives : Natives)
    (work : (Place → Atom → Atom → Evaluation Atom) → α) : Prop :=
  ∃ nesting, FinishesWithin natives nesting work

/-!
## Evaluations that agree

A search evaluates only guards in the pattern, whatever the subject is, and rewriting an atom with
rigid heads applies only rigid heads, whatever is bound.
-/

section

variable {p : Atom → Prop} {evaluate evaluate' : GuardEvaluator}

def GuardsAgree (p : Atom → Prop) (evaluate evaluate' : GuardEvaluator) : Prop :=
  ∀ binds condition, condition.Everywhere p → evaluate binds condition = evaluate' binds condition

theorem ofFree_congr (hagree : GuardsAgree p evaluate evaluate') {guard : Option Atom}
    (h : OptionEverywhere p guard) (pattern : Atom) (name : String) (type : Matcher) :
    Matcher.ofFree evaluate pattern name guard type =
      Matcher.ofFree evaluate' pattern name guard type := by
  have hbind : Matcher.bind evaluate pattern name guard =
      Matcher.bind evaluate' pattern name guard := by
    cases guard with
    | none => rfl
    | some condition =>
        funext subject binds
        simp only [Matcher.bind, hagree _ condition h]
  unfold Matcher.ofFree
  rw [hbind]

mutual

theorem search_congr (hagree : GuardsAgree p evaluate evaluate') :
    ∀ pattern : Atom, pattern.Everywhere p → search evaluate pattern = search evaluate' pattern
  | typeUniverse mark => fun _ => rfl
  | root name mark => fun _ => rfl
  | literal value type mark => fun _ => rfl
  | operator op mark => fun _ => rfl
  | var name type guard index mark => fun h => by
      rw [search_var, search_var, search_congr hagree type h.2.1,
        ofFree_congr hagree h.2.2]
  | lambda parameter body mark => fun h => by
      rw [search_lambda, search_lambda, search_congr hagree parameter h.2.1,
        search_congr hagree body h.2.2]
  | sequence ⟨properties, elements⟩ mark => fun h => by
      rw [search_sequence, search_sequence, lawElements_congr hagree properties h.2.1,
        listElements_congr hagree elements h.2.2]
  | propertySet properties mark => fun h => by
      rw [search_propertySet, search_propertySet, lawElements_congr hagree properties h.2]
  | application head argument bound mark => fun h => by
      have htype : headType evaluate head = headType evaluate' head := by
        cases head with
        | operator op mark =>
            rcases op with ⟨name, properties, parameters, resultType, native⟩
            cases resultType with
            | none => rfl
            | some result => rw [headType, headType, search_congr hagree result h.2.1.2.2.2]
        | _ => rfl
      have hargument :
          argumentElements evaluate argument = argumentElements evaluate' argument := by
        cases argument with
        | sequence s mark =>
            rcases s with ⟨properties, elements⟩
            rw [argumentElements, argumentElements, lawElements_congr hagree properties h.2.2.2.1,
              listElements_congr hagree elements h.2.2.2.2]
        | _ => rfl
      rw [search_application, search_application, htype, hargument,
        search_congr hagree head h.2.1, search_congr hagree argument h.2.2]

theorem listElements_congr (hagree : GuardsAgree p evaluate evaluate') :
    ∀ list : List Atom, ListEverywhere p list →
    listElements evaluate list = listElements evaluate' list
  | [] => fun _ => rfl
  | atom :: rest => fun h => by
      rw [listElements_cons, listElements_cons, search_congr hagree atom h.1,
        listElements_congr hagree rest h.2]

theorem optionElement_congr (hagree : GuardsAgree p evaluate evaluate') :
    ∀ value : Option Atom, OptionEverywhere p value →
    optionElement evaluate value = optionElement evaluate' value
  | none => fun _ => rfl
  | some atom => fun h => by
      rw [optionElement, optionElement, search_congr hagree atom h]

theorem lawElements_congr (hagree : GuardsAgree p evaluate evaluate') :
    ∀ properties : PropertySet Atom, PropertiesEverywhere p properties →
    lawElements evaluate properties = lawElements evaluate' properties
  | ⟨a, c, i, b, d⟩ => fun h => by
      rw [lawElements, lawElements, optionElement_congr hagree a h.1,
        optionElement_congr hagree c h.2.1, optionElement_congr hagree i h.2.2.1,
        optionElement_congr hagree b h.2.2.2.1, optionElement_congr hagree d h.2.2.2.2]

end

theorem matchWith_congr (hagree : GuardsAgree p evaluate evaluate') {pattern : Atom}
    (h : pattern.Everywhere p) : matchWith evaluate pattern = matchWith evaluate' pattern := by
  rw [matchWith, matchWith, search_congr hagree pattern h]

end

section

variable {q : List Atom → Prop} {apply apply' : Place → Atom → Atom → Evaluation Atom}

/-- Two ways to apply heads agree on rigid heads, of which rewriting makes rigid heads. -/
structure AppliesAgree (q : List Atom → Prop)
    (apply apply' : Place → Atom → Atom → Evaluation Atom) : Prop where
  eq : ∀ {place head argument}, head.isRigid = true → RigidOver q head →
    apply place head argument = apply' place head argument
  yields : ∀ {head : Atom}, head.isRigid = true → head.Everywhere (RigidOver q) → ∀ binds place,
    (rewriteWith apply binds place head).Yields fun new =>
      new.value.isRigid = true ∧ RigidOver q new.value

variable {binds : Bindings}

mutual

theorem rewriteWith_eq_of_agree (hagree : AppliesAgree q apply apply') :
    ∀ atom : Atom, atom.Everywhere (RigidOver q) → ∀ place,
    rewriteWith apply binds place atom = rewriteWith apply' binds place atom
  | typeUniverse mark => fun _ place => by rw [rewriteWith, rewriteWith]
  | root name mark => fun _ place => by rw [rewriteWith, rewriteWith]
  | literal value type mark => fun _ place => by rw [rewriteWith, rewriteWith]
  | operator op mark => fun _ place => by rw [rewriteWith, rewriteWith]
  | var name type guard index mark => fun h place => by
      rw [rewriteWith, rewriteWith, rewriteWith_eq_of_agree hagree type h.2.1,
        rewriteOption_eq_of_agree hagree guard h.2.2]
  | lambda parameter body mark => fun h place => by
      rw [rewriteWith, rewriteWith, rewriteWith_eq_of_agree hagree body h.2.2]
  | sequence ⟨properties, elements⟩ mark => fun h place => by
      rw [rewriteWith, rewriteWith, rewriteSequence_eq_of_agree hagree ⟨properties, elements⟩ h.2]
  | propertySet properties mark => fun h place => by
      rw [rewriteWith, rewriteWith, rewriteProperties_eq_of_agree hagree properties h.2]
  | application head argument bound mark => fun h place => by
      rw [rewriteWith, rewriteWith, ← rewriteWith_eq_of_agree hagree head h.2.1,
        ← rewriteWith_eq_of_agree hagree argument h.2.2]
      split
      · rfl
      · -- only the head has to be known: the two ways may differ on other heads
        refine (hagree.yields h.1 h.2.1 binds (0 :: place)).bind_congr fun newHead hhead => ?_
        simp only [hagree.eq hhead.1 hhead.2]

theorem rewriteSequence_eq_of_agree (hagree : AppliesAgree q apply apply') :
    ∀ s : Sequence Atom,
    PropertiesEverywhere (RigidOver q) s.properties ∧ ListEverywhere (RigidOver q) s.elements →
    ∀ place, rewriteSequence apply binds place s = rewriteSequence apply' binds place s
  | ⟨properties, elements⟩ => fun h place => by
      rw [rewriteSequence, rewriteSequence, rewriteProperties_eq_of_agree hagree properties h.1,
        rewriteList_eq_of_agree hagree elements h.2]

theorem rewriteList_eq_of_agree (hagree : AppliesAgree q apply apply') :
    ∀ list : List Atom, ListEverywhere (RigidOver q) list → ∀ place,
    rewriteList apply binds place list = rewriteList apply' binds place list
  | [] => fun _ place => by rw [rewriteList, rewriteList]
  | atom :: rest => fun h place => by
      rw [rewriteList, rewriteList, rewriteWith_eq_of_agree hagree atom h.1,
        rewriteList_eq_of_agree hagree rest h.2]

theorem rewriteOption_eq_of_agree (hagree : AppliesAgree q apply apply') :
    ∀ value : Option Atom, OptionEverywhere (RigidOver q) value → ∀ place,
    rewriteOption apply binds place value = rewriteOption apply' binds place value
  | none => fun _ place => by rw [rewriteOption, rewriteOption]
  | some atom => fun h place => by
      rw [rewriteOption, rewriteOption, rewriteWith_eq_of_agree hagree atom h]

theorem rewriteProperties_eq_of_agree (hagree : AppliesAgree q apply apply') :
    ∀ properties : PropertySet Atom, PropertiesEverywhere (RigidOver q) properties → ∀ place,
    rewriteProperties apply binds place properties = rewriteProperties apply' binds place properties
  | ⟨a, c, i, b, d⟩ => fun h place => by
      rw [rewriteProperties, rewriteProperties, rewriteOption_eq_of_agree hagree a h.1,
        rewriteOption_eq_of_agree hagree c h.2.1, rewriteOption_eq_of_agree hagree i h.2.2.1,
        rewriteOption_eq_of_agree hagree b h.2.2.2.1, rewriteOption_eq_of_agree hagree d h.2.2.2.2]

end

theorem guardsAgree_guardEvaluator (hagree : AppliesAgree q apply apply') (place : Place) :
    GuardsAgree (RigidOver q) (guardEvaluator apply place) (guardEvaluator apply' place) := by
  intro binds atom h
  rw [guardEvaluator, guardEvaluator, rewriteWith_eq_of_agree hagree atom h]

end

end Atom

/-!
## Applying operators

Applying an operator evaluates only guards of its parameters, which stand one level below it; so
the induction is on the level of the operators.
-/

namespace Operator

open Atom

variable {q : List Atom → Prop} {evaluate evaluate' : GuardEvaluator} {natives : Natives}

theorem copies_congr (hagree : GuardsAgree (RigidOver q) evaluate evaluate') {name : String}
    {type : Atom} {guard : Option Atom} (hguard : OptionEverywhere (RigidOver q) guard)
    (copy count : Nat) :
    copies evaluate name type guard copy count = copies evaluate' name type guard copy count := by
  induction count generalizing copy with
  | zero => rfl
  | succ count ih =>
      cases guard with
      | none => rw [copies, copies, ih]
      | some condition => simp only [copies, hagree _ condition hguard, ih]

theorem paddedParameters_congr (hagree : GuardsAgree (RigidOver q) evaluate evaluate')
    {op : Operator Atom} (hparameters : ListEverywhere (RigidOver q) op.parameters) (arity : Nat) :
    op.paddedParameters evaluate arity = op.paddedParameters evaluate' arity := by
  unfold paddedParameters
  split
  · rfl
  · rename_i name type guard index mark hlast
    have hvar := listEverywhere_iff.mp hparameters _ (List.mem_of_getLast? hlast)
    rw [copies_congr hagree hvar.2.2]
  · rfl

section

variable (hkeeps : evaluate.Keeps (RigidOver q))
include hkeeps

theorem everywhere_copies {name : String} {type : Atom} {guard : Option Atom}
    (htype : type.Everywhere (RigidOver q)) (hguard : OptionEverywhere (RigidOver q) guard)
    (copy count : Nat) :
    (copies evaluate name type guard copy count).Yields (ListEverywhere (RigidOver q)) := by
  induction count generalizing copy with
  | zero => exact yields_value trivial
  | succ count ih =>
      have hrest : ∀ copyGuard, OptionEverywhere (RigidOver q) copyGuard →
          Yields (ListEverywhere (RigidOver q)) (do
            let rest ← copies evaluate name type guard (copy + 1) count
            pure (.var (name ++ "#" ++ Number.natText copy) type copyGuard 0 .new :: rest)) :=
        fun copyGuard hcopy => (ih (copy + 1)).bind fun rest hrest =>
          yields_value ⟨⟨trivial, htype, hcopy⟩, hrest⟩
      cases guard with
      | none => exact hrest none trivial
      | some condition =>
          have hfree : (Atom.free (name ++ "#" ++ Number.natText copy) type).Everywhere
              (RigidOver q) := ⟨trivial, htype, trivial⟩
          exact (hkeeps _ condition (NameMap.all_empty.insert hfree) hguard).bind
            fun renamed hrenamed => (yields_value hrenamed).bind fun copyGuard hcopy =>
              hrest copyGuard hcopy

theorem everywhere_paddedParameters {op : Operator Atom}
    (hparameters : ListEverywhere (RigidOver q) op.parameters) (arity : Nat) :
    (op.paddedParameters evaluate arity).Yields (ListEverywhere (RigidOver q)) := by
  unfold paddedParameters
  split
  · exact yields_value trivial
  · rename_i name type guard index mark hlast
    have hvar := listEverywhere_iff.mp hparameters _ (List.mem_of_getLast? hlast)
    refine (everywhere_copies hkeeps hvar.2.1 hvar.2.2 _ _).bind fun more hmore => ?_
    rw [listEverywhere_iff] at hparameters hmore
    exact yields_value (listEverywhere_iff.mpr (List.forall_mem_append.mpr ⟨hparameters, hmore⟩))
  · exact yields_error _

end

theorem dispatch_congr (hagree : GuardsAgree (RigidOver q) evaluate evaluate') (op : Operator Atom)
    {parameters : List Atom} (hparameters : ListEverywhere (RigidOver q) parameters)
    (list : List Atom) :
    op.dispatch natives evaluate parameters list =
      op.dispatch natives evaluate' parameters list := by
  unfold dispatch bindParameters
  rw [listElements_congr hagree parameters hparameters]

theorem applyWith_congr (hagree : GuardsAgree (RigidOver q) evaluate evaluate')
    (hkeeps : evaluate.Keeps (RigidOver q))
    {op : Operator Atom} (hparameters : ListEverywhere (RigidOver q) op.parameters)
    (argument : Atom) :
    op.applyWith natives evaluate argument = op.applyWith natives evaluate' argument := by
  have hpadded : ∀ list : List Atom,
      (op.paddedParameters evaluate list.length >>= fun parameters =>
        op.dispatch natives evaluate parameters list) =
      op.paddedParameters evaluate' list.length >>= fun parameters =>
        op.dispatch natives evaluate' parameters list := by
    intro list
    rw [← paddedParameters_congr hagree hparameters]
    exact (everywhere_paddedParameters hkeeps hparameters _).bind_congr fun parameters h =>
      dispatch_congr hagree op h list
  unfold applyWith applyAssociative
  simp only [hpadded, dispatch_congr hagree op hparameters]

end Operator

namespace Atom

variable {natives : Natives}

theorem applyLambda_congr {p : Atom → Prop} {evaluate evaluate' : GuardEvaluator}
    (hagree : GuardsAgree p evaluate evaluate')
    (hvar : ∀ name type guard, p (var name type guard 0 .new))
    {parameter body : Atom} (hparameter : parameter.Everywhere p) (hbody : body.Everywhere p)
    (place : Place) (argument : Atom) :
    applyLambda evaluate place parameter body argument =
      applyLambda evaluate' place parameter body argument := by
  cases parameter with
  | var name type guard index mark =>
      have hfree : (var name type guard 0 .new).Everywhere p := ⟨hvar name type guard, hparameter.2⟩
      unfold applyLambda
      simp only [matchWith_congr hagree hfree, hagree _ body hbody]
  | _ => rfl

theorem applyWith_congr {q : List Atom → Prop} {evaluate evaluate' : GuardEvaluator}
    (hagree : GuardsAgree (RigidOver q) evaluate evaluate')
    (hkeeps : evaluate.Keeps (RigidOver q))
    {head : Atom} (h : head.Everywhere (RigidOver q)) {place : Place} (argument : Atom) :
    applyWith natives evaluate place head argument =
      applyWith natives evaluate' place head argument := by
  cases head with
  | operator op mark => exact Operator.applyWith_congr hagree hkeeps h.parameters argument
  | lambda parameter body mark =>
      exact applyLambda_congr hagree (fun _ _ _ => trivial) h.2.1 h.2.2 place argument
  | _ => rfl

theorem appliesAgree_of_operators {q : List Atom → Prop}
    {evaluate evaluate' : Place → GuardEvaluator}
    (h : ∀ (op : Operator Atom) place argument, q op.parameters →
      op.applyWith natives (evaluate place) argument =
        op.applyWith natives (evaluate' place) argument) :
    AppliesAgree q (fun place => applyWith natives (evaluate place) place)
      (fun place => applyWith natives (evaluate' place) place) where
  eq := by
    intro place head argument hrigid hhead
    cases head with
    | operator op mark => exact h op place argument hhead.2
    | lambda parameter body mark => cases hrigid
    | _ => rfl
  yields hrigid h _ place := yields_rewriteWith_rigid hrigid h place

theorem keeps_guardEvaluator {q : List Atom → Prop}
    {deeper : Place → Atom → Atom → Evaluation Atom} {n : Nat} (hn : 0 < n) (place : Place) :
    (guardEvaluator (applyOver natives deeper n) place).Keeps (RigidOver q) := by
  obtain ⟨n, rfl⟩ := Nat.exists_eq_succ_of_ne_zero (Nat.ne_of_gt hn)
  exact kept_rigidOver.keeps place

/-- Guards stand one level below the operators whose parameters they belong to.  So beyond the
level of an atom the depth of calls makes no difference. -/
theorem appliesAgree_applyOver (level : Nat) :
    ∀ {n n' : Nat}, level < n → level < n' → ∀ deeper deeper',
      AppliesAgree (Stratified level) (applyOver natives deeper n)
        (applyOver natives deeper' n') := by
  induction level with
  | zero =>
      intro n n' hn hn' deeper deeper'
      obtain ⟨n, rfl⟩ := Nat.exists_eq_succ_of_ne_zero (Nat.ne_of_gt hn)
      obtain ⟨n', rfl⟩ := Nat.exists_eq_succ_of_ne_zero (Nat.ne_of_gt hn')
      exact appliesAgree_of_operators fun _ _ _ h => h.elim
  | succ level ih =>
      intro n n' hn hn' deeper deeper'
      obtain ⟨n, rfl⟩ := Nat.exists_eq_succ_of_ne_zero (Nat.ne_of_gt (Nat.zero_lt_of_lt hn))
      obtain ⟨n', rfl⟩ := Nat.exists_eq_succ_of_ne_zero (Nat.ne_of_gt (Nat.zero_lt_of_lt hn'))
      have hn := Nat.lt_of_succ_lt_succ hn
      have hbelow := ih hn (Nat.lt_of_succ_lt_succ hn') deeper deeper'
      exact appliesAgree_of_operators fun op place argument hparameters =>
        Operator.applyWith_congr (guardsAgree_guardEvaluator hbelow _)
          (keeps_guardEvaluator (Nat.zero_lt_of_lt hn) _) hparameters argument

/-!
## Atoms with rigid heads

The head itself may be a lambda: its body is evaluated one call below.
-/

section

variable {atom : Atom} (h : atom.Everywhere Rigid)
include h

theorem rewriteWith_finishes (binds : Bindings) (place : Place) :
    FinishesWithin natives (atom.operatorDepth + 1) fun apply =>
      rewriteWith apply binds place atom := by
  intro n hn deeper
  have hatom := everywhere_stratified atom h _ (Nat.le_refl _)
  rw [← applyOver_error]
  exact rewriteWith_eq_of_agree (appliesAgree_applyOver _ hn (Nat.lt_succ_self _) _ _) atom hatom
    place

theorem matchWith_finishes (place : Place) (subject : Atom) (binds : Bindings) :
    FinishesWithin natives (atom.operatorDepth + 1) fun apply =>
      matchWith (guardEvaluator apply place) atom subject binds := by
  intro n hn deeper
  have hatom := everywhere_stratified atom h _ (Nat.le_refl _)
  have hagree : AppliesAgree (Stratified atom.operatorDepth) (applyOver natives deeper n)
      (applyOver natives (fun _ _ _ => .error .nesting) (atom.operatorDepth + 1)) :=
    appliesAgree_applyOver _ hn (Nat.lt_succ_self _) _ _
  simp only [← applyOver_error]
  rw [matchWith_congr (guardsAgree_guardEvaluator hagree place) hatom]

theorem apply_finishes (place : Place) (argument : Atom) :
    FinishesWithin natives (atom.operatorDepth + 2) fun apply => apply place atom argument := by
  intro n hn deeper
  have hatom := everywhere_stratified atom h _ (Nat.le_refl _)
  obtain ⟨n, rfl⟩ := Nat.exists_eq_succ_of_ne_zero (Nat.ne_of_gt (Nat.zero_lt_of_lt hn))
  have hn := Nat.lt_of_succ_lt_succ hn
  rw [← applyOver_error]
  exact applyWith_congr (guardsAgree_guardEvaluator
    (appliesAgree_applyOver _ hn (Nat.lt_succ_self _) _ _) _)
    (keeps_guardEvaluator (Nat.zero_lt_of_lt hn) _) hatom argument

end

/-- An atom with rigid heads is rewritten under all bindings, matched with all subjects and applied
to all arguments within a number of nested calls that depends on the atom alone. -/
theorem evaluation_finishes {atom : Atom} (h : atom.Everywhere Rigid) :
    (∀ binds place, FinishesWithin natives (atom.operatorDepth + 1) fun apply =>
      rewriteWith apply binds place atom) ∧
    (∀ place subject binds, FinishesWithin natives (atom.operatorDepth + 1) fun apply =>
      matchWith (guardEvaluator apply place) atom subject binds) ∧
    ∀ place argument, FinishesWithin natives (atom.operatorDepth + 2) fun apply =>
      apply place atom argument :=
  ⟨rewriteWith_finishes h, matchWith_finishes h, apply_finishes h⟩

/-- An operator whose parameter has a guard that applies another operator. -/
def guarded : Operator Atom :=
  let test : Operator Atom := ⟨"even", ⟨none, none, none, none, none⟩, [.free "n" .any], none, none⟩
  let guard : Atom := .application (.operator test .common) (.free "n" .any) .empty .common
  ⟨"half", ⟨none, none, none, none, none⟩, [.var "n" .any (some guard) 0 .common], none, none⟩

def guardedCall : Atom := .application (.operator guarded .common) (.free "m" .any) .empty .common

theorem evaluation_finishes_guardedCall :
    guardedCall.Everywhere Rigid ∧ guardedCall.operatorDepth = 2 ∧
    (∀ binds place, FinishesWithin Native.standard 3 fun apply =>
      rewriteWith apply binds place guardedCall) ∧
    (∀ place subject binds, FinishesWithin Native.standard 3 fun apply =>
      matchWith (guardEvaluator apply place) guardedCall subject binds) ∧
    ∀ place argument, FinishesWithin Native.standard 4 fun apply =>
      apply place guardedCall argument := by
  have hrigid : guardedCall.Everywhere Rigid := by decide
  exact ⟨hrigid, rfl, evaluation_finishes hrigid⟩

end Atom

/-- An engine that allows for enough nested calls evaluates an atom with rigid heads as every engine
that allows for more. -/
theorem Engine.nesting_suffices {engine : Engine} {nesting : Nat} {atom : Atom}
    (h : atom.Everywhere Atom.Rigid) (hengine : atom.operatorDepth + 2 ≤ engine.nesting)
    (hnesting : engine.nesting ≤ nesting) (binds : Bindings) (other : Atom) :
    let larger : Engine := { engine with nesting := nesting }
    larger.rewrite binds atom = engine.rewrite binds atom ∧
    larger.tryMatch atom other binds = engine.tryMatch atom other binds ∧
    larger.apply atom other = engine.apply atom other := by
  intro larger
  have hlarger : atom.operatorDepth + 2 ≤ nesting := Nat.le_trans hengine hnesting
  refine ⟨(Atom.rewriteWith_finishes h binds engine.place).agree (Nat.le_of_succ_le hlarger)
      (Nat.le_of_succ_le hengine), ?_,
    (Atom.apply_finishes h engine.place other).agree hlarger hengine⟩
  exact (Atom.matchWith_finishes h engine.place other binds).agree (Nat.le_of_succ_le hlarger)
    (Nat.le_of_succ_le hengine)

namespace Atom

variable {natives : Natives}

/-!
## What does not finish
-/

theorem not_finishes {α : Type} {work : (Place → Atom → Atom → Evaluation Atom) → Evaluation α}
    (h : ∀ e n, (work (applyOver natives (fun _ _ _ => .error e) n)).result = .error e) :
    ¬ Finishes natives work := by
  rintro ⟨nesting, hfinishes⟩
  -- a finished work cannot end in each of two errors
  have hone := h .nesting nesting
  have hother := h (.notVariable .any) nesting
  rw [hfinishes nesting (Nat.le_refl _)] at hone hother
  rw [hone] at hother
  cases hother

def placeholder : Atom := .var ":1" .any none 1 .common

/-- The lambda that applies a head to its argument, which may stand in the head as well. -/
def applier (head : Atom) : Atom :=
  .lambda placeholder (.application head placeholder .empty .common) .common

def giver : Atom := .lambda placeholder placeholder .common

def only : Operator Atom :=
  ⟨"only", ⟨some (boolean true), none, none, none, none⟩, [.free "x" .any], none, none⟩

def single : Atom := .application (.operator only .common) placeholder .empty .common

section

variable (natives : Natives) (e : TermError)

theorem result_apply_placeholder (n : Nat) (place : Place) :
    (applyOver natives (fun _ _ _ => .error e) n place (applier placeholder)
      (applier placeholder)).result = .error e := by
  induction n generalizing place with
  | zero => rfl
  | succ n ih => exact result_andThen_of_error (result_bind_of_error (ih (2 :: place)) _) _

/-- The lambda at the head captures what is put into it, so that it is applied to the same argument
again when it is evaluated. -/
theorem result_apply_captured (n : Nat) (place : Place) :
    (applyOver natives (fun _ _ _ => .error e) n place (.lambda placeholder (applier giver) .new)
      (applier giver)).result = .error e := by
  induction n generalizing place with
  | zero => rfl
  | succ n ih =>
      exact result_andThen_of_error
        (result_bind_of_error (result_bind_of_error (ih (0 :: 2 :: place)) _) _) _

theorem result_apply_giver (n : Nat) (place : Place) :
    (applyOver natives (fun _ _ _ => .error e) n place (applier giver) (applier giver)).result =
      .error e := by
  cases n with
  | zero => rfl
  | succ n =>
      exact result_andThen_of_error
        (result_bind_of_error (result_apply_captured natives e n (2 :: place)) _) _

theorem result_apply_single (n : Nat) (place : Place) :
    (applyOver natives (fun _ _ _ => .error e) n place (applier single) (applier single)).result =
      .error e := by
  induction n generalizing place with
  | zero => rfl
  | succ n ih =>
      let apply := applyOver natives (fun _ _ _ => .error e) n
      let head := rewriteWith apply (NameMap.empty.insert ":1" (applier single)) (0 :: 2 :: place)
        single
      change ((head >>= _).andThen _).result = _
      refine result_andThen_of_error ?_ _
      cases n with
      | zero => exact result_bind_of_error rfl _
      | succ n =>
          -- the operator gives back its only argument, which is then applied to itself
          have hhead : head.result = .ok ⟨applier single, true⟩ := rfl
          exact (result_bind_of_ok hhead _).trans (result_bind_of_error (ih (2 :: place)) _)

end

/-- Operators are without native evaluation. -/
def Symbolic : Atom → Prop
  | operator op _ => op.native = none
  | _ => True

instance : DecidablePred Symbolic
  | operator op _ => inferInstanceAs (Decidable (op.native = none))
  | typeUniverse _ | root .. | literal .. | var .. | lambda .. | sequence .. | propertySet ..
  | application .. => instDecidableTrue

/-- There is no end to applying the lambda around a head to itself, though it is well made and
without native evaluation. -/
structure Endless (head : Atom) : Prop where
  built : (applier head).Built
  symbolic : (applier head).Everywhere Symbolic
  not_finishes : ∀ natives place, ¬ Finishes natives fun apply =>
    apply place (applier head) (applier head)

theorem endless_placeholder : Endless placeholder where
  built := by decide
  symbolic := by decide
  not_finishes natives place := not_finishes fun e n => result_apply_placeholder natives e n place

theorem endless_giver : Endless giver where
  built := by decide
  symbolic := by decide
  not_finishes natives place := not_finishes fun e n => result_apply_giver natives e n place

theorem endless_single : Endless single where
  built := by decide
  symbolic := by decide
  not_finishes natives place := not_finishes fun e n => result_apply_single natives e n place

/-- At the head of an application, a variable may lead to no end, and so may a lambda, and an
application that gives back its argument. -/
theorem apply_not_finished : Endless placeholder ∧ Endless giver ∧ Endless single :=
  ⟨endless_placeholder, endless_giver, endless_single⟩

end Atom

end Equational
