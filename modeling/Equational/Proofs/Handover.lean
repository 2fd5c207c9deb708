import Equational.Proofs.Extension
import Equational.Proofs.WellMade

/-!
# What an application hands over

An operator whose arguments are not settled by its absorber, its identity or a
lone argument binds its padded parameters, one by one, and hands its arguments
and the bindings to its evaluation.  Parameters and arguments correspond: each
name is bound to the argument at its position, but for a parameter that meets
itself, which stands for itself and is not bound.
-/

namespace Equational

open Atom

namespace Operator

variable {op : Operator Atom} {natives : Natives} {evaluate : GuardEvaluator} {argument : Atom}
  {parameters arguments : List Atom} {binds found bound : Bindings}

/-!
## Calls

An application that comes to a call gives what the evaluation of that call gives.
-/

/-- The parameters that an application binds, and the arguments that it binds them to.  It binds
none if an associative operator gives its absorber, its identity or its only argument. -/
inductive Pairs (evaluate : GuardEvaluator) (op : Operator Atom) (argument : Atom)
    (parameters arguments : List Atom) : Prop
  | fixed (hassociative : op.properties.isAssociative = false)
      (hlist : (op.arguments argument).result = .ok arguments)
      (hparameters : parameters = op.parameters)
  | padded {list : List Atom} (hassociative : op.properties.isAssociative = true)
      (hlist : (op.arguments argument).result = .ok list)
      (harguments : arguments = op.simplify list)
      (habsorbs : ∀ atom ∈ arguments, op.absorbs atom = false) (hlone : arguments.length ≠ 1)
      (hidentity : arguments = [] → op.properties.identity = none)
      (hparameters : (op.paddedParameters evaluate arguments.length).result = .ok parameters)

theorem Pairs.result_applyWith (h : op.Pairs evaluate argument parameters arguments)
    (natives : Natives) : (op.applyWith natives evaluate argument).result =
      (op.dispatch natives evaluate parameters arguments).result := by
  unfold applyWith
  cases h with
  | fixed hassociative hlist hparameters =>
      rw [Evaluation.result_bind_of_ok hlist, hassociative, hparameters]
      rfl
  | padded hassociative hlist harguments habsorbs hlone hidentity hparameters =>
      rw [Evaluation.result_bind_of_ok hlist, hassociative, if_pos rfl]
      rw [harguments] at habsorbs hlone hidentity hparameters ⊢
      unfold applyAssociative
      simp only [Plain.filter_absorber _ habsorbs]
      split
      · rename_i identity hnone hdeclared
        rw [hidentity hnone] at hdeclared
        cases hdeclared
      · rename_i lone hsingle
        rw [hsingle] at hlone
        exact absurd rfl hlone
      · rw [Evaluation.result_bind_of_ok hparameters]

/-- The parameters, arguments and bindings of the call that an application comes to.  It comes to
none if its arguments do not match its parameters, or if an associative operator gives its absorber,
its identity or its only argument. -/
inductive Calls (evaluate : GuardEvaluator) (op : Operator Atom) (argument : Atom)
    (parameters arguments : List Atom) (bound : Bindings) : Prop
  | fixed (hassociative : op.properties.isAssociative = false)
      (hlist : (op.arguments argument).result = .ok arguments)
      (hparameters : parameters = op.parameters)
      (hbound : (op.bindParameters evaluate parameters arguments).result = .ok bound)
  | padded {list : List Atom} (hassociative : op.properties.isAssociative = true)
      (hlist : (op.arguments argument).result = .ok list)
      (harguments : arguments = op.simplify list)
      (habsorbs : ∀ atom ∈ arguments, op.absorbs atom = false) (hlone : arguments.length ≠ 1)
      (hidentity : arguments = [] → op.properties.identity = none)
      (hparameters : (op.paddedParameters evaluate arguments.length).result = .ok parameters)
      (hbound : (op.bindParameters evaluate parameters arguments).result = .ok bound)

/-- The call that is evaluated: its arguments are the normal sequence of what was bound. -/
def call (op : Operator Atom) (arguments : List Atom) (bound : Bindings) : Call :=
  ⟨op, .ofList op.properties arguments, bound⟩

theorem elements_call (op : Operator Atom) (arguments : List Atom) (bound : Bindings) :
    (op.call arguments bound).arguments.elements = Sequence.normalize op.properties arguments := rfl

theorem result_dispatch (h : (op.bindParameters evaluate parameters arguments).result = .ok bound) :
    (op.dispatch natives evaluate parameters arguments).result =
      (evaluateCall natives (op.call arguments bound)).result :=
  Evaluation.result_bind_of_ok h _

theorem Calls.pairs (h : op.Calls evaluate argument parameters arguments bound) :
    op.Pairs evaluate argument parameters arguments ∧
      (op.bindParameters evaluate parameters arguments).result = .ok bound := by
  cases h with
  | fixed hassociative hlist hparameters hbound =>
      exact ⟨.fixed hassociative hlist hparameters, hbound⟩
  | padded hassociative hlist harguments habsorbs hlone hidentity hparameters hbound =>
      exact ⟨.padded hassociative hlist harguments habsorbs hlone hidentity hparameters, hbound⟩

theorem Calls.bindParameters_eq (h : op.Calls evaluate argument parameters arguments bound) :
    (op.bindParameters evaluate parameters arguments).result = .ok bound := h.pairs.2

theorem Calls.result_applyWith (h : op.Calls evaluate argument parameters arguments bound)
    (natives : Natives) : (op.applyWith natives evaluate argument).result =
      (evaluateCall natives (op.call arguments bound)).result :=
  (h.pairs.1.result_applyWith natives).trans (result_dispatch h.bindParameters_eq)

/-- An application that succeeds gives its absorber, its identity or its only argument, or else what
the evaluation of a call gives. -/
theorem exists_calls {result : Atom}
    (h : (op.applyWith natives evaluate argument).result = .ok result) :
    (op.properties.isAssociative = true ∧ (op.properties.absorber = some result ∨
        op.properties.identity = some result ∨
        ∃ list, (op.arguments argument).result = .ok list ∧ op.simplify list = [result])) ∨
      ∃ parameters arguments bound, op.Calls evaluate argument parameters arguments bound ∧
        (evaluateCall natives (op.call arguments bound)).result = .ok result := by
  unfold applyWith at h
  rw [Evaluation.result_bind_eq_ok_iff] at h
  rcases h with ⟨list, hlist, h⟩
  cases hassociative : op.properties.isAssociative with
  | false =>
      rw [hassociative, if_neg Bool.false_ne_true, dispatch, Evaluation.result_bind_eq_ok_iff] at h
      rcases h with ⟨bound, hbound, h⟩
      exact Or.inr ⟨op.parameters, list, bound, .fixed hassociative hlist rfl hbound, h⟩
  | true =>
      rw [hassociative, if_pos rfl] at h
      rcases applyAssociative_inv h with ⟨-, -, -, habsorber⟩ |
        ⟨habsorbs, ⟨-, hidentity⟩ | hsingle | ⟨hlone, hidentity, padded, hpadded, h⟩⟩
      · exact Or.inl ⟨rfl, Or.inl habsorber⟩
      · exact Or.inl ⟨rfl, Or.inr (Or.inl hidentity)⟩
      · exact Or.inl ⟨rfl, Or.inr (Or.inr ⟨list, hlist, hsingle⟩)⟩
      · rw [dispatch, Evaluation.result_bind_eq_ok_iff] at h
        rcases h with ⟨bound, hbound, h⟩
        exact Or.inr ⟨padded, op.simplify list, bound,
          .padded hassociative hlist rfl habsorbs hlone hidentity hpadded hbound, h⟩

/-!
## Padded parameters are pattern variables
-/

theorem isFreeVar_of_copies {name : String} {type : Atom} {guard : Option Atom} {copy count : Nat}
    {list : List Atom} (h : (copies evaluate name type guard copy count).result = .ok list) :
    ∀ parameter ∈ list, parameter.isFreeVar = true := by
  induction count generalizing copy list with
  | zero =>
      cases h
      exact List.forall_mem_nil _
  | succ count ih =>
      have hcons : ∃ copyGuard rest,
          (copies evaluate name type guard (copy + 1) count).result = .ok rest ∧
            .var (name ++ "#" ++ Number.natText copy) type copyGuard 0 .new :: rest = list := by
        unfold copies at h
        split at h
        · simp only [Evaluation.result_bind_eq_ok_iff, Evaluation.result_pure, Except.ok.injEq] at h
          rcases h with ⟨renamed, -, copyGuard, -, rest, hrest, hlist⟩
          exact ⟨copyGuard, rest, hrest, hlist⟩
        · simp only [Evaluation.result_bind_eq_ok_iff, Evaluation.result_pure, Except.ok.injEq] at h
          rcases h with ⟨copyGuard, -, rest, hrest, hlist⟩
          exact ⟨copyGuard, rest, hrest, hlist⟩
      rcases hcons with ⟨copyGuard, rest, hrest, rfl⟩
      exact List.forall_mem_cons.mpr ⟨rfl, ih hrest⟩

theorem isFreeVar_of_paddedParameters
    (hfree : ∀ parameter ∈ op.parameters, parameter.isFreeVar = true) {arity : Nat}
    (h : (op.paddedParameters evaluate arity).result = .ok parameters) :
    ∀ parameter ∈ parameters, parameter.isFreeVar = true := by
  unfold paddedParameters at h
  split at h
  · cases h
    exact List.forall_mem_nil _
  · rw [Evaluation.result_bind_eq_ok_iff] at h
    rcases h with ⟨more, hmore, h⟩
    cases h
    exact List.forall_mem_append.mpr ⟨hfree, isFreeVar_of_copies hmore⟩
  · cases h

theorem Calls.isFreeVar (h : op.Calls evaluate argument parameters arguments bound)
    (hchecked : op.checked = .ok op) : ∀ parameter ∈ parameters, parameter.isFreeVar = true := by
  rw [checked_operator_iff] at hchecked
  cases h with
  | fixed _ _ hparameters _ => rwa [hparameters]
  | padded _ _ _ _ _ _ hparameters _ => exact isFreeVar_of_paddedParameters hchecked hparameters

/-!
## The bindings of a call
-/

/-- The names in the type of a parameter, which a match binds to parts of types. -/
def typeNames : Atom → List String
  | .var _ type _ _ _ => type.patternVariables.map Prod.fst
  | _ => []

/-- What bindings say of a formal parameter and an argument: the name is bound to the argument,
unless the argument is the parameter itself, and then it is not bound, or at most by a type. -/
def Hands (bound : Bindings) (types : List String) (parameter argument : Atom) : Prop :=
  ∃ name, parameter.variableName? = some name ∧
    ((parameter == argument) = false →
      ∃ atom, bound.find? name = some atom ∧ (atom == argument) = true) ∧
    ((parameter == argument) = true → name ∉ types → bound.find? name = none)

/-- A parameter leaves the bindings alone if it meets itself.  Else its name is bound to the
argument, and besides it only names in its type are bound anew. -/
theorem of_mem_search_parameter {parameter : Atom} (hfree : parameter.isFreeVar = true)
    (h : found ∈ (search evaluate parameter argument binds).alternatives) :
    ∃ name, parameter.variableName? = some name ∧
      ((parameter == argument) = true ∧ found = binds ∨
        (parameter == argument) = false ∧
          (∃ atom, found.find? name = some atom ∧ (atom == argument) = true) ∧
          binds.Gains (fun other => other ∈ typeNames parameter ∨ other = name) found) := by
  cases parameter with
  | var name type guard index mark =>
      refine ⟨name, rfl, ?_⟩
      rw [search_var, if_neg (by simpa [Atom.isFreeVar] using hfree)] at h
      rcases Matcher.mem_ofFree h with ⟨hself, rfl⟩ | ⟨hother, middle, hmiddle, hfound⟩
      · exact Or.inl ⟨hself, rfl⟩
      · refine Or.inr ⟨hother, ?_⟩
        have hgains := invariant_gains fun other =>
          other ∈ typeNames (.var name type guard index mark) ∨ other = name
        have hkeeps := keeps_search evaluate hgains fun v hv => Or.inl (List.mem_map_of_mem hv)
        have htype := hkeeps argument.type trivial binds middle hmiddle
        rcases Matcher.mem_bind hfound with ⟨existing, hfind, hequal, rfl⟩ | ⟨-, rfl⟩
        · exact ⟨⟨existing, hfind, hequal⟩, htype.2⟩
        · exact ⟨⟨argument, NameMap.find?_insert_self middle name argument, Atom.beq_refl argument⟩,
            htype.2.trans (NameMap.gains_insert (Or.inr rfl) argument)⟩
  | _ => cases hfree

theorem mem_patternVariables (hfree : ∀ parameter ∈ parameters, parameter.isFreeVar = true) :
    ∀ v ∈ parameters.flatMap patternVariables,
      v.1 ∈ parameters.flatMap typeNames ∨ v.1 ∈ parameters.filterMap variableName? := by
  intro v hv
  rcases List.mem_flatMap.mp hv with ⟨parameter, hparameter, hv⟩
  cases parameter with
  | var name type guard index mark =>
      rw [patternVariables_var (hfree _ hparameter), List.mem_cons] at hv
      rcases hv with rfl | hv
      · exact .inr (List.mem_filterMap.mpr ⟨_, hparameter, rfl⟩)
      · exact .inl (List.mem_flatMap.mpr ⟨_, hparameter, List.mem_map_of_mem hv⟩)
  | _ => cases hfree _ hparameter

/-- Parameters of different names, none of them bound beforehand, are handed the arguments at their
positions. -/
theorem hands_of_mem_matchAll {types : List String}
    (hfree : ∀ parameter ∈ parameters, parameter.isFreeVar = true)
    (htypes : ∀ name ∈ parameters.flatMap typeNames, name ∈ types)
    (hdistinct : (parameters.filterMap variableName?).Nodup)
    (hunbound : ∀ name ∈ parameters.filterMap variableName?, name ∉ types → binds.find? name = none)
    (h : found ∈ (Element.matchAll (listElements evaluate parameters) arguments
      binds).alternatives) : List.Forall₂ (Hands found types) parameters arguments := by
  induction parameters generalizing arguments binds with
  | nil =>
      have hlength := Element.length_eq_of_mem_matchAll h
      rw [List.length_eq_zero_iff.mp hlength.symm]
      exact .nil
  | cons parameter rest ih =>
      cases arguments with
      | nil => cases Element.length_eq_of_mem_matchAll h
      | cons argument arguments =>
          rw [listElements_cons, Element.alternatives_matchAll_cons, List.mem_flatMap] at h
          rcases h with ⟨middle, hmiddle, hfound⟩
          have hparts := List.forall_mem_cons.mp hfree
          rcases of_mem_search_parameter hparts.1 hmiddle with ⟨name, hname, hcases⟩
          rw [List.filterMap_cons, hname] at hdistinct hunbound
          rw [List.nodup_cons] at hdistinct
          rw [List.flatMap_cons, List.forall_mem_append] at htypes
          have hfree := List.forall_mem_cons.mp hunbound
          refine .cons ⟨name, hname, ?_, ?_⟩ (ih hparts.2 htypes.2 hdistinct.2 ?_ hfound)
          · -- a name that is bound stays bound to the same atom
            intro hother
            rcases hcases with ⟨hself, -⟩ | ⟨-, ⟨atom, hatom, hequal⟩, -⟩
            · rw [hself] at hother
              cases hother
            · exact ⟨atom, Element.extends_of_mem_matchAll (extending_listElements evaluate rest)
                hfound name atom hatom, hequal⟩
          · -- no later parameter has the name
            intro hself htype
            rcases hcases with ⟨-, rfl⟩ | ⟨hother, -⟩
            · have hgains := invariant_gains fun other =>
                other ∈ rest.flatMap typeNames ∨ other ∈ rest.filterMap variableName?
              have hkeeps := keeps_listElements evaluate hgains (mem_patternVariables hparts.2)
              have hrest := Element.holds_matchAll hgains.closed hkeeps (fun _ _ => trivial)
                middle found hfound
              exact hrest.2.find?_eq_none (hfree.1 htype) fun hgained =>
                hgained.elim (fun hmem => htype (htypes.2 name hmem)) hdistinct.1
            · rw [hself] at hother
              cases hother
          · intro other hmem htype
            have hother := hfree.2 other hmem htype
            rcases hcases with ⟨-, rfl⟩ | ⟨-, -, hgains⟩
            · exact hother
            · exact hgains.find?_eq_none hother fun hgained => hgained.elim
                (fun hin => htype (htypes.1 other hin)) fun heq => hdistinct.1 (heq ▸ hmem)

theorem mem_of_bindParameters
    (h : (op.bindParameters evaluate parameters arguments).result = .ok bound) :
    bound ∈ (Element.matchAll (listElements evaluate parameters) arguments
      .empty).alternatives := by
  rw [bindParameters_result] at h
  cases hfirst : (Element.matchAll (listElements evaluate parameters) arguments
      .empty).value.first.value with
  | error failure =>
      rw [hfirst] at h
      cases h
  | ok binds =>
      rw [hfirst] at h
      cases h
      exact List.mem_of_head? ((Outcome.first_eq_ok_iff _ _).mp hfirst)

/-!
## The arguments of a call
-/

/-- In its normal form under the properties of the operator, a list of arguments is what it was: no
argument is a sequence that would be opened, and without associativity none is dropped as equal to
another. -/
structure Keeps (op : Operator Atom) (arguments : List Atom) : Prop where
  nests : op.properties.isAssociative = true → ∀ atom ∈ arguments, op.nests atom = false
  repeats : op.properties.isAssociative = false → op.properties.isIdempotent = true →
    arguments.Pairwise fun a b => (a == b) = false

theorem Calls.elements_eq (h : op.Calls evaluate argument parameters arguments bound)
    (hkeeps : op.Keeps arguments) : (op.call arguments bound).arguments.elements = arguments := by
  rw [elements_call]
  cases h with
  | fixed hassociative hlist hparameters hbound =>
      rw [Sequence.normalize_of_not_associative hassociative, Sequence.pruned]
      split
      · exact distinct_of_pairwise (hkeeps.repeats hassociative ‹_›)
      · rfl
  | padded hassociative hlist harguments habsorbs hlone hidentity hparameters hbound =>
      rw [simplify_eq] at harguments
      apply Sequence.normalize_of_kept hassociative
      · rw [harguments]
        exact Sequence.pruned_pruned _ _
      · intro atom hatom
        have hunit := (mem_of_mem_remaining (harguments ▸ hatom)).2
        exact kept_of_not_nests (habsorbs atom hatom) hunit (hkeeps.nests hassociative atom hatom)

/-- The parameters and the arguments of a call correspond.  What the application gives is what the
evaluation of the call gives.  If its parameters, the copies of the last one among them, have
different names, then there are as many arguments as parameters, and every name is bound to the
argument at its position, but for a parameter that is its own argument.  The evaluation sees these
arguments, as long as there is nothing in them to normalize. -/
theorem calls_correspond (hchecked : op.checked = .ok op)
    (hcalls : op.Calls evaluate argument parameters arguments bound)
    (hdistinct : (parameters.filterMap variableName?).Nodup) :
    (∀ natives, (op.applyWith natives evaluate argument).result =
        (evaluateCall natives (op.call arguments bound)).result) ∧
      List.Forall₂ (Hands bound (parameters.flatMap typeNames)) parameters arguments ∧
      (op.Keeps arguments → (op.call arguments bound).arguments.elements = arguments) := by
  refine ⟨hcalls.result_applyWith, ?_, hcalls.elements_eq⟩
  exact hands_of_mem_matchAll (hcalls.isFreeVar hchecked) (fun _ h => h) hdistinct
    (fun _ _ _ => NameMap.find?_empty _) (mem_of_bindParameters hcalls.bindParameters_eq)

/-- An associative operator of one parameter, which is repeated for further arguments. -/
def chain : Operator Atom :=
  ⟨"chain", ⟨some (.boolean true), none, none, none, none⟩, [.free "a" .any], none, none⟩

theorem calls_correspond_chain :
    ∃ bound, chain.Calls Engine.idle.evaluate (.sequence (.plain [.integer 1, .integer 2]) .new)
        [.free "a" .any, .free "a#1" .any] [.integer 1, .integer 2] bound ∧
      List.Forall₂ (Hands bound []) [.free "a" .any, .free "a#1" .any] [.integer 1, .integer 2] ∧
      (chain.call [.integer 1, .integer 2] bound).arguments.elements =
        [.integer 1, .integer 2] := by
  have hok : ((chain.bindParameters Engine.idle.evaluate [.free "a" .any, .free "a#1" .any]
      [.integer 1, .integer 2]).result.toOption.any fun _ => true) = true := by
    decide +kernel
  rcases Engine.exists_result_of_any hok with ⟨bound, hbound, -⟩
  have hcalls : chain.Calls Engine.idle.evaluate (.sequence (.plain [.integer 1, .integer 2]) .new)
      [.free "a" .any, .free "a#1" .any] [.integer 1, .integer 2] bound :=
    .padded rfl rfl rfl (by decide) (by decide) (by simp) rfl hbound
  have hcorrespond := calls_correspond rfl hcalls (by decide)
  exact ⟨bound, hcalls, hcorrespond.2.1, hcorrespond.2.2 ⟨fun _ => by decide, by decide⟩⟩

/-- Every parameter is bound to the element at its position in the argument list of the call. -/
def BindsInOrder (parameters : List Atom) (call : Call) : Prop :=
  List.Forall₂ (fun parameter element => ∃ name atom, parameter.variableName? = some name ∧
    call.bound.find? name = some atom ∧ (atom == element) = true) parameters call.arguments.elements

def unary : Operator Atom := ⟨"f", .none, [.free "x" .any], none, none⟩

/-- An operator the type of whose second parameter is the first one. -/
def typed : Operator Atom :=
  ⟨"f", .none, [.free "y" .any, .free "x" (.free "y" .any)], none, none⟩

def binary : Operator Atom :=
  ⟨"f", ⟨some (.boolean true), none, none, none, none⟩, [.free "x" .any, .free "y" .any], none,
    none⟩

def nested : Atom := .sequence ⟨binary.properties, [.integer 1, .integer 2]⟩ .new

/-- An idempotent operator of which it is open whether it is associative. -/
def perhaps : Operator Atom :=
  ⟨"f", ⟨some (.free "v" .any), none, some (.boolean true), none, none⟩,
    [.free "x" .any, .free "y" .any], none, none⟩

/-- Applied to a plain list, a legal operator of different parameters comes to a call of these
arguments in which some parameter is not bound to the element at its position. -/
def OutOfOrder (op : Operator Atom) (parameters arguments : List Atom) : Prop :=
  (op.properties.checked = .ok op.properties ∧ op.checked = .ok op ∧
    (parameters.filterMap variableName?).Nodup) ∧
    ∃ bound, op.Calls Engine.idle.evaluate (.sequence (.plain arguments) .new) parameters arguments
      bound ∧ ¬BindsInOrder parameters (op.call arguments bound)

/-- Parameters and elements are not always in order: a parameter that is its own argument is not
bound, or it is bound by a type; and a list that is normalized again gains or loses elements. -/
theorem calls_out_of_order :
    unary.OutOfOrder [.free "x" .any] [.free "x" .any] ∧
      typed.OutOfOrder [.free "y" .any, .free "x" (.free "y" .any)] [.free "y" .any, .integer 1] ∧
      binary.OutOfOrder [.free "x" .any, .free "y" .any] [nested, .integer 3] ∧
      perhaps.OutOfOrder [.free "x" .any, .free "y" .any] [.integer 1, .integer 1] := by
  have hself : ((unary.bindParameters Engine.idle.evaluate [.free "x" .any]
      [.free "x" .any]).result.toOption.any fun bound => (bound.find? "x").isNone) = true := by
    decide +kernel
  have htype : ((typed.bindParameters Engine.idle.evaluate
      [.free "y" .any, .free "x" (.free "y" .any)] [.free "y" .any, .integer 1]).result.toOption.any
        fun bound => (bound.find? "y").all (· != .free "y" .any)) = true := by
    decide +kernel
  have hnested : ((binary.bindParameters Engine.idle.evaluate [.free "x" .any, .free "y" .any]
      [nested, .integer 3]).result.toOption.any fun _ => true) = true := by
    decide +kernel
  have hequal : ((perhaps.bindParameters Engine.idle.evaluate [.free "x" .any, .free "y" .any]
      [.integer 1, .integer 1]).result.toOption.any fun _ => true) = true := by
    decide +kernel
  refine ⟨⟨⟨rfl, rfl, by decide⟩, ?_⟩, ⟨⟨rfl, rfl, by decide⟩, ?_⟩, ⟨⟨rfl, rfl, by decide⟩, ?_⟩,
    ⟨rfl, rfl, by decide⟩, ?_⟩
  · rcases Engine.exists_result_of_any hself with ⟨bound, hbound, hnone⟩
    refine ⟨bound, .fixed rfl rfl rfl hbound, fun h => ?_⟩
    rcases List.forall₂_cons.mp h with ⟨⟨name, atom, hname, hfind, -⟩, -⟩
    cases hname
    change bound.find? "x" = some atom at hfind
    rw [hfind] at hnone
    cases hnone
  · rcases Engine.exists_result_of_any htype with ⟨bound, hbound, hdiffers⟩
    refine ⟨bound, .fixed rfl rfl rfl hbound, fun h => ?_⟩
    rcases List.forall₂_cons.mp h with ⟨⟨name, atom, hname, hfind, hsame⟩, -⟩
    cases hname
    change bound.find? "y" = some atom at hfind
    rw [hfind, Option.all_some, bne, hsame] at hdiffers
    cases hdiffers
  · rcases Engine.exists_result_of_any hnested with ⟨bound, hbound, -⟩
    refine ⟨bound, .padded rfl rfl rfl (by decide) (by decide) (by simp) rfl hbound, fun h => ?_⟩
    have hlength : (Sequence.normalize binary.properties [nested, .integer 3]).length = 3 := by
      decide +kernel
    have hequal := h.length_eq
    rw [elements_call, hlength] at hequal
    cases hequal
  · rcases Engine.exists_result_of_any hequal with ⟨bound, hbound, -⟩
    refine ⟨bound, .fixed rfl rfl rfl hbound, fun h => ?_⟩
    have hlength : (Sequence.normalize perhaps.properties [.integer 1, .integer 1]).length = 1 := by
      decide +kernel
    have hequal := h.length_eq
    rw [elements_call, hlength] at hequal
    cases hequal

end Operator

end Equational
