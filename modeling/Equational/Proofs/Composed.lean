import Equational.Engine
import Equational.Proofs.Arrangement
import Equational.Proofs.Parts

/-!
# Terms composed of plain operators

A plain operator has no native evaluation, constant properties, and formal
parameters that accept everything.  Terms are composed of literals and pattern
variables by applying such operators.  What an application of a plain operator
gives is known: the arguments are flattened, units are dropped, and what is left
stands below the operator, unless it is a single argument or none.
-/

namespace Equational

namespace Atom

def isLiteral : Atom → Bool
  | literal .. => true
  | _ => false

/-- A pattern variable that accepts everything. -/
def IsFree (name : String) (atom : Atom) : Prop :=
  ∃ type mark, atom = var name type none 0 mark ∧ type.isAny = true

theorem IsFree.variableName? {name : String} {atom : Atom} (h : atom.IsFree name) :
    atom.variableName? = some name := by
  rcases h with ⟨type, mark, rfl, -⟩
  rfl

theorem IsFree.isAny_type {name : String} {atom : Atom} (h : atom.IsFree name) :
    atom.type.isAny = true := by
  rcases h with ⟨type, mark, rfl, hany⟩
  exact hany

/-- Kinds of types that have no parts and accept nothing but themselves, save the one that accepts
everything. -/
def isLeafType : Atom → Bool
  | typeUniverse _ | root .. | literal .. | operator .. => true
  | _ => false

/-- A pattern variable without a guard that has a type without parts. -/
def IsTyped (name : String) (atom : Atom) : Prop :=
  ∃ type mark, atom = var name type none 0 mark ∧ type.isLeafType = true

theorem IsTyped.variableName? {name : String} {atom : Atom} (h : atom.IsTyped name) :
    atom.variableName? = some name := by
  rcases h with ⟨type, mark, rfl, -⟩
  rfl

theorem IsFree.isTyped {name : String} {atom : Atom} (h : atom.IsFree name) :
    atom.IsTyped name := by
  rcases h with ⟨type, mark, rfl, hany⟩
  refine ⟨type, mark, rfl, ?_⟩
  cases type with
  | root other mark => rfl
  | _ => cases hany

/-- The argument is the parameter itself, or has the type that the parameter accepts. -/
def Suits (parameter argument : Atom) : Prop :=
  (parameter == argument) = true ∨
    (parameter.type.isAny || parameter.type == argument.type) = true

end Atom

open Atom

/-- An operator that does nothing but put arguments together. -/
structure Operator.Plain (op : Operator Atom) : Prop where
  native : op.native = none
  resultType : ∀ type, op.resultType = some type → type.isConstant = true
  legal : op.properties.checked = .ok op.properties
  constant : op.properties.isConstant = true
  idempotent : op.properties.isIdempotent = false
  absorber : ∀ atom, op.properties.absorber = some atom → atom.isLiteral = true
  identity : ∀ atom, op.properties.identity = some atom → atom.isLiteral = true
  parameters : ∀ atom ∈ op.parameters, ∃ name, atom.IsFree name ∧ '#' ∉ name.toList
  distinct : (op.parameters.filterMap variableName?).Nodup

/-- Terms composed of literals and pattern variables by operators of a signature. -/
inductive Composed (signature : Operator Atom → Prop) : Atom → Prop
  | literal (value : Literal) (type : Atom) (mark : Mark) :
      Composed signature (.literal value type mark)
  | var (name : String) (type : Atom) (mark : Mark) (hany : type.isAny = true) :
      Composed signature (.var name type none 0 mark)
  | apply {engine : Engine} {op : Operator Atom} {mark listMark : Mark} {list : List Atom}
      {result : Atom} (hop : signature op) (hlist : ∀ atom ∈ list, Composed signature atom)
      (h : (engine.apply (.operator op mark) (.sequence (.plain list) listMark)).result =
        .ok result) : Composed signature result

/-!
## Laws of plain operators

In a legal property set without variables, the boolean laws are truth values.  So every law that a
plain operator specifies is a literal.
-/

namespace PropertySet

theorem get_isConstant {properties : Properties} (h : properties.isConstant = true) {law : Law}
    {value : Atom} (hget : properties.get law = some value) : value.isConstant = true := by
  rcases properties with ⟨a, c, i, b, d⟩
  simp only [isConstant, propertiesConstant, Bool.and_eq_true] at h
  cases law with
  | associative =>
      simp only [get] at hget
      simpa [hget, optionConstant] using h.1.1.1.1
  | commutative =>
      simp only [get] at hget
      simpa [hget, optionConstant] using h.1.1.1.2
  | idempotent =>
      simp only [get] at hget
      simpa [hget, optionConstant] using h.1.1.2
  | absorber =>
      simp only [get] at hget
      simpa [hget, optionConstant] using h.1.2
  | identity =>
      simp only [get] at hget
      simpa [hget, optionConstant] using h.2

theorem isLiteral_of_bool? {atom : Atom} {value : Bool} (h : atom.bool? = some value) :
    atom.isLiteral = true := by
  unfold bool? at h
  split at h
  · rfl
  · cases h

theorem checks_of_legal {properties : Properties} (hlegal : properties.checked = .ok properties) :
    properties.notBoolean? = .none ∧ properties.lacksAssociative? = .none := by
  rw [← Option.or_eq_none_iff]
  unfold checked at hlegal
  cases herror : properties.notBoolean?.or properties.lacksAssociative? with
  | none => rfl
  | some error =>
      rw [herror] at hlegal
      cases hlegal

theorem exists_bool_of_legal {properties : Properties}
    (hlegal : properties.checked = .ok properties) (hconstant : properties.isConstant = true)
    {law : Law} (hlaw : law.isBoolean = true) {value : Atom}
    (hget : properties.get law = some value) : ∃ truth, value.bool? = some truth := by
  have hmem : law ∈ [Law.associative, .commutative, .idempotent] := by
    cases law with
    | associative => simp
    | commutative => simp
    | idempotent => simp
    | absorber => cases hlaw
    | identity => cases hlaw
  have hcheck := List.findSome?_eq_none_iff.mp (checks_of_legal hlegal).1 law hmem
  simp only [hget, get_isConstant hconstant hget, Bool.true_and] at hcheck
  cases hbool : value.bool? with
  | none =>
      rw [hbool] at hcheck
      cases hcheck
  | some truth => exact ⟨truth, rfl⟩

theorem isLiteral_of_legal {properties : Properties} (hlegal : properties.checked = .ok properties)
    (hconstant : properties.isConstant = true)
    (habsorber : ∀ value, properties.absorber = some value → value.isLiteral = true)
    (hidentity : ∀ value, properties.identity = some value → value.isLiteral = true) {law : Law}
    {value : Atom} (hget : properties.get law = some value) : value.isLiteral = true := by
  cases hlaw : law.isBoolean with
  | true =>
      rcases exists_bool_of_legal hlegal hconstant hlaw hget with ⟨truth, hbool⟩
      exact isLiteral_of_bool? hbool
  | false =>
      cases law with
      | absorber => exact habsorber value hget
      | identity => exact hidentity value hget
      | _ => cases hlaw

theorem bindingIndex_eq_zero {properties : Properties}
    (h : ∀ law value, properties.get law = some value → value.isLiteral = true) :
    properties.bindingIndex = 0 := by
  have hoption : ∀ law, optionIndex (properties.get law) = 0 := by
    intro law
    cases hget : properties.get law with
    | none => rfl
    | some value =>
        have hliteral := h law value hget
        cases value with
        | literal => rfl
        | _ => cases hliteral
  rcases properties with ⟨a, c, i, b, d⟩
  have ha := hoption .associative
  have hc := hoption .commutative
  have hi := hoption .idempotent
  have hb := hoption .absorber
  have hd := hoption .identity
  simp only [get] at ha hc hi hb hd
  simp only [bindingIndex, propertiesIndex, ha, hc, hi, hb, hd]
  rfl

end PropertySet

namespace Operator.Plain

variable {op : Operator Atom}

theorem isLiteral_of_get (h : op.Plain) {law : Law} {value : Atom}
    (hget : op.properties.get law = some value) : value.isLiteral = true :=
  PropertySet.isLiteral_of_legal h.legal h.constant h.absorber h.identity hget

theorem bindingIndex (h : op.Plain) : op.properties.bindingIndex = 0 :=
  PropertySet.bindingIndex_eq_zero fun _ _ => h.isLiteral_of_get

end Operator.Plain

/-!
## Formal parameters

A type without parts accepts itself, or everything.  So typed variables of different names, none
of them bound, take every list that suits them; padding repeats the last of them under fresh
names.
-/

namespace Number

theorem natText_injective {m n : Nat} (h : natText m = natText n) : m = n := by
  have hdigits : Nat.toDigits 10 m = Nat.toDigits 10 n := by
    simpa [natText] using congrArg String.toList h
  have hvalue := congrArg (fun digits => Nat.ofDigitChars 10 digits 0) hdigits
  simpa using hvalue

end Number

namespace Atom

open Matcher

variable {evaluate : GuardEvaluator} {name : String} {pattern subject : Atom}
  {binds found : Bindings}

theorem alternatives_ofLeaf : (ofLeaf pattern subject binds).alternatives =
    if pattern == subject then [binds] else [] := by
  unfold ofLeaf
  split <;> rfl

theorem alternatives_search_leafType {type : Atom} (htype : type.isLeafType = true) :
    (search evaluate type subject binds).alternatives =
      if type.isAny || type == subject then [binds] else [] := by
  cases type with
  | root other mark =>
      rw [search_root]
      cases (root other mark).isAny with
      | true => rfl
      | false => exact alternatives_ofLeaf
  | typeUniverse mark => exact alternatives_ofLeaf
  | literal value type mark => exact alternatives_ofLeaf
  | operator op mark => exact alternatives_ofLeaf
  | _ => cases htype

theorem alternatives_search_typed (h : pattern.IsTyped name) (hfind : binds.find? name = none) :
    (search evaluate pattern subject binds).alternatives =
      if pattern == subject then [binds]
      else if pattern.type.isAny || pattern.type == subject.type then [binds.insert name subject]
      else [] := by
  rcases h with ⟨type, mark, rfl, htype⟩
  rw [search_var, if_neg (by simp), ofFree]
  split
  · rw [hfind]
    rfl
  · rw [Traced.alternatives_continued, Traced.alternatives_mapFailure, alternatives_watched,
      alternatives_search_leafType htype]
    change List.flatMap _ (if type.isAny || type == subject.type then [binds] else []) =
      if type.isAny || type == subject.type then [binds.insert name subject] else []
    split
    · simp only [List.flatMap_singleton, Matcher.bind, hfind]
      rfl
    · rfl

theorem alternatives_search_unbound (h : pattern.IsFree name) (hfind : binds.find? name = none) :
    (search evaluate pattern subject binds).alternatives =
      if pattern == subject then [binds] else [binds.insert name subject] := by
  rw [alternatives_search_typed h.isTyped hfind, h.isAny_type, Bool.true_or, if_pos rfl]

theorem alternatives_search_bound (h : pattern.IsFree name) {existing : Atom}
    (hfind : binds.find? name = some existing) :
    (search evaluate pattern subject binds).alternatives =
      if existing == subject then [binds] else [] := by
  rcases h with ⟨type, mark, rfl, hany⟩
  rw [search_var, if_neg (by simp), ofFree]
  split
  · rw [hfind]
    simp only
    split
    · rfl
    · rfl
  · have htype : search evaluate type = always := by
      cases type with
      | root other mark => rw [search_root, if_pos hany]
      | _ => cases hany
    rw [Traced.alternatives_continued, Traced.alternatives_mapFailure, alternatives_watched, htype]
    change [binds].flatMap _ = _
    simp only [List.flatMap_singleton, Matcher.bind, hfind]
    split
    · rfl
    · rfl

theorem exists_mem_matchAll_typed {parameters arguments : List Atom}
    (htyped : ∀ atom ∈ parameters, ∃ name, atom.IsTyped name)
    (hdistinct : (parameters.filterMap variableName?).Nodup)
    (hunbound : ∀ name ∈ parameters.filterMap variableName?, binds.find? name = none)
    (hsuits : List.Forall₂ Suits parameters arguments) :
    ∃ found, found ∈
      (Element.matchAll (listElements evaluate parameters) arguments binds).alternatives := by
  induction hsuits generalizing binds with
  | nil => exact ⟨binds, List.mem_singleton.mpr rfl⟩
  | @cons parameter argument rest arguments hsuits _ ih =>
      rcases htyped parameter List.mem_cons_self with ⟨name, hname⟩
      rw [List.filterMap_cons, hname.variableName?] at hdistinct hunbound
      rw [List.nodup_cons] at hdistinct
      have hunbound' := hunbound name List.mem_cons_self
      have hstep : ∃ middle, middle ∈ (search evaluate parameter argument binds).alternatives ∧
          ∀ other ∈ rest.filterMap variableName?, middle.find? other = none := by
        rw [alternatives_search_typed hname hunbound']
        split
        · exact ⟨binds, List.mem_singleton.mpr rfl,
            fun other hother => hunbound other (List.mem_cons_of_mem _ hother)⟩
        · rename_i hself
          rw [if_pos (hsuits.resolve_left hself)]
          refine ⟨_, List.mem_singleton.mpr rfl, ?_⟩
          intro other hother
          have hne : other ≠ name := fun heq => hdistinct.1 (heq ▸ hother)
          rw [NameMap.find?_insert_of_ne binds argument hne]
          exact hunbound other (List.mem_cons_of_mem _ hother)
      rcases hstep with ⟨middle, hmiddle, hrest⟩
      rcases ih (fun atom hatom => htyped atom (List.mem_cons_of_mem _ hatom))
        hdistinct.2 hrest with
        ⟨found, hfound⟩
      refine ⟨found, ?_⟩
      rw [listElements_cons, Element.alternatives_matchAll_cons, List.mem_flatMap]
      exact ⟨middle, hmiddle, hfound⟩

theorem exists_mem_matchAll_free {parameters arguments : List Atom}
    (hfree : ∀ atom ∈ parameters, ∃ name, atom.IsFree name)
    (hdistinct : (parameters.filterMap variableName?).Nodup)
    (hunbound : ∀ name ∈ parameters.filterMap variableName?, binds.find? name = none)
    (hlength : parameters.length = arguments.length) :
    ∃ found, found ∈
      (Element.matchAll (listElements evaluate parameters) arguments binds).alternatives := by
  refine exists_mem_matchAll_typed (fun atom hatom => ?_) hdistinct hunbound
    (List.forall₂_iff_zip.mpr ⟨hlength, fun hmem => ?_⟩)
  · exact (hfree atom hatom).imp fun _ => IsFree.isTyped
  · rcases hfree _ (List.of_mem_zip hmem).1 with ⟨name, hname⟩
    exact Or.inr (Bool.or_eq_true_iff.mpr (Or.inl hname.isAny_type))

end Atom

namespace Operator

variable {op : Operator Atom} {evaluate : GuardEvaluator}

theorem bindParameters_result (parameters arguments : List Atom) :
    (op.bindParameters evaluate parameters arguments).result =
      ((Element.matchAll (listElements evaluate parameters) arguments
        .empty).value.first.value.mapError (.parameters op.name)) := rfl

theorem bindParameters_ok {parameters arguments : List Atom}
    (h : ∃ found, found ∈ (Element.matchAll (listElements evaluate parameters) arguments
      .empty).alternatives) :
    ∃ bound, (op.bindParameters evaluate parameters arguments).result = .ok bound := by
  rcases h with ⟨found, hfound⟩
  rcases (Outcome.first_isOk_iff _).mpr (List.ne_nil_of_mem hfound) with ⟨bound, hbound⟩
  exact ⟨bound, by rw [bindParameters_result, hbound]; rfl⟩

theorem length_eq_of_bindParameters {parameters arguments : List Atom} {bound : Bindings}
    (h : (op.bindParameters evaluate parameters arguments).result = .ok bound) :
    parameters.length = arguments.length := by
  rw [bindParameters_result] at h
  cases hfirst : (Element.matchAll (listElements evaluate parameters) arguments
      .empty).value.first.value with
  | error failure =>
      rw [hfirst] at h
      cases h
  | ok binds =>
      have hne := (Outcome.first_isOk_iff _).mp ⟨binds, hfirst⟩
      rcases List.exists_mem_of_ne_nil _ hne with ⟨found, hfound⟩
      simpa using Element.length_eq_of_mem_matchAll hfound

def plainCopies (name : String) (type : Atom) (copy count : Nat) : List Atom :=
  (List.range' copy count).map fun i => .var (name ++ "#" ++ Number.natText i) type none 0 .new

theorem length_plainCopies (name : String) (type : Atom) (copy count : Nat) :
    (plainCopies name type copy count).length = count := by
  rw [plainCopies, List.length_map, List.length_range']

theorem isFree_plainCopies (name : String) {type : Atom} (hany : type.isAny = true)
    (copy count : Nat) : ∀ atom ∈ plainCopies name type copy count, ∃ name, atom.IsFree name := by
  intro atom hatom
  rcases List.mem_map.mp hatom with ⟨i, -, rfl⟩
  exact ⟨_, type, .new, rfl, hany⟩

theorem copies_result (name : String) (type : Atom) (copy count : Nat) :
    (copies evaluate name type none copy count).result =
      .ok (plainCopies name type copy count) := by
  induction count generalizing copy with
  | zero => rfl
  | succ count ih =>
      have hrest := ih (copy + 1)
      unfold copies
      change (Evaluation.andThen (Evaluation.value none) _).result = _
      rw [Evaluation.value_andThen]
      change (Evaluation.andThen (copies evaluate name type none (copy + 1) count) _).result = _
      simp only [Evaluation.andThen, hrest]
      rfl

theorem paddedParameters_result {op : Operator Atom} {name : String} {type : Atom} {index : UInt64}
    {mark : Mark} (hlast : op.parameters.getLast? = some (.var name type none index mark))
    (arity : Nat) : (op.paddedParameters evaluate arity).result =
      .ok (op.parameters ++ plainCopies name type 1 (arity - op.parameters.length)) := by
  rw [paddedParameters, hlast]
  change (Evaluation.andThen (copies evaluate name type none 1 _) _).result = _
  simp only [Evaluation.andThen, copies_result]
  rfl

theorem filterMap_plainCopies (name : String) (type : Atom) (copy count : Nat) :
    (plainCopies name type copy count).filterMap variableName? =
      (List.range' copy count).map fun i => name ++ "#" ++ Number.natText i := by
  rw [plainCopies, List.filterMap_map]
  exact congrFun (List.filterMap_eq_map (f := fun i => name ++ "#" ++ Number.natText i)) _

theorem nodup_copyNames (name : String) (copy count : Nat) :
    ((List.range' copy count).map fun i => name ++ "#" ++ Number.natText i).Nodup := by
  have hrange : (List.range' copy count).Nodup := List.nodup_range'
  refine List.pairwise_map.mpr (List.Pairwise.imp ?_ hrange)
  intro i j hne h
  apply hne
  apply Number.natText_injective
  simpa using h

namespace Plain

theorem isFree (h : op.Plain) : ∀ atom ∈ op.parameters, ∃ name, atom.IsFree name := by
  intro atom hatom
  rcases h.parameters atom hatom with ⟨name, hname, -⟩
  exact ⟨name, hname⟩

theorem paddedParameters_ok (h : op.Plain) {arity : Nat} (harity : op.parameters.length ≤ arity)
    (hempty : op.parameters = [] → arity = 0) :
    ∃ padded, (op.paddedParameters evaluate arity).result = .ok padded ∧
      padded.length = arity ∧ (∀ atom ∈ padded, ∃ name, atom.IsFree name) ∧
      (padded.filterMap variableName?).Nodup := by
  cases hlast : op.parameters.getLast? with
  | none =>
      have hnil := List.getLast?_eq_none_iff.mp hlast
      refine ⟨[], ?_, by simp [hempty hnil], by simp, by simp⟩
      rw [paddedParameters, hlast]
      rfl
  | some last =>
      have hmem := List.mem_of_getLast? hlast
      rcases h.parameters last hmem with ⟨name, ⟨type, mark, rfl, hany⟩, hhash⟩
      refine ⟨op.parameters ++ plainCopies name type 1 (arity - op.parameters.length),
        paddedParameters_result hlast arity, ?_, ?_, ?_⟩
      · rw [List.length_append, length_plainCopies]
        omega
      · exact List.forall_mem_append.mpr ⟨h.isFree, isFree_plainCopies name hany 1 _⟩
      · rw [List.filterMap_append, filterMap_plainCopies, List.nodup_append]
        refine ⟨h.distinct, nodup_copyNames name 1 _, ?_⟩
        intro declared hdeclared copy hcopy heq
        rcases List.mem_filterMap.mp hdeclared with ⟨atom, hatom, hname⟩
        rcases h.parameters atom hatom with ⟨other, hother, hfree⟩
        rw [hother.variableName?, Option.some_inj] at hname
        rcases List.mem_map.mp hcopy with ⟨i, -, rfl⟩
        rw [hname, heq] at hfree
        exact hfree (by simp)

theorem length_paddedParameters (h : op.Plain) {arity : Nat} {padded : List Atom}
    (hpadded : (op.paddedParameters evaluate arity).result = .ok padded) :
    op.parameters.length ≤ padded.length ∧ (op.parameters = [] → padded = []) := by
  cases hlast : op.parameters.getLast? with
  | none =>
      have hnil := List.getLast?_eq_none_iff.mp hlast
      rw [paddedParameters, hlast] at hpadded
      cases hpadded
      simp [hnil]
  | some last =>
      have hmem := List.mem_of_getLast? hlast
      have hne := List.ne_nil_of_mem hmem
      rcases h.parameters last hmem with ⟨name, ⟨type, mark, rfl, -⟩, -⟩
      rw [paddedParameters_result hlast] at hpadded
      cases hpadded
      exact ⟨by simp, fun hnil => absurd hnil hne⟩

end Plain

end Operator

/-!
## Flat argument lists

An argument contributes itself, or its own arguments if it is an application of the operator.  In
a flat list nothing would disappear below the operator, so what an associative operator comes to
is its absorber, its identity, a single argument, or the application to what is left.
-/

namespace Sequence

theorem normalize_eq_self {properties : Properties} {list : List Atom}
    (hidempotent : properties.isIdempotent = false)
    (h : properties.isAssociative = true → ∀ atom ∈ list, atom.sequence? = none ∧
      (properties.absorber == some atom) = false ∧ (properties.identity == some atom) = false) :
    normalize properties list = list := by
  have hsplice : properties.isAssociative = true →
      splice properties list = .elements list false := by
    intro hassociative
    have hall := h hassociative
    clear h
    induction list with
    | nil => rfl
    | cons atom rest ih =>
        rcases hall atom List.mem_cons_self with ⟨hsequence, habsorber, hidentity⟩
        have hrest := ih fun other hother => hall other (List.mem_cons_of_mem _ hother)
        unfold splice
        simp only [habsorber, hidentity, Bool.false_eq_true, if_false]
        cases atom with
        | sequence s mark => cases hsequence
        | _ => simp [hrest, Spliced.cons]
  unfold normalize normalizeWithin
  simp only [hidempotent, Bool.false_eq_true, if_false, bne_self_eq_false, Bool.false_or]
  cases hassociative : properties.isAssociative with
  | false => rfl
  | true => simp only [if_true, hsplice hassociative, Bool.false_eq_true, if_false]

end Sequence

namespace Operator

variable (op : Operator Atom)

def heads : Atom → Bool
  | .application (.operator inner _) _ _ _ => inner == op
  | _ => false

def isUnit (atom : Atom) : Bool := op.properties.identity.any (atom == ·)

def absorbs (atom : Atom) : Bool := op.properties.absorber.any (atom == ·)

/-- What an atom contributes to a flattened list. -/
def pieces (atom : Atom) : List Atom := op.flatten [atom]

/-- No element of a list would disappear below the operator. -/
structure Flat (list : List Atom) : Prop where
  heads : ∀ atom ∈ list, op.heads atom = false
  units : ∀ atom ∈ list, op.isUnit atom = false
  absorbs : ∀ atom ∈ list, op.absorbs atom = false

theorem flatten_eq_flatMap (list : List Atom) : op.flatten list = list.flatMap op.pieces := by
  have hpieces : ∀ atom, op.pieces atom = op.flatten [atom] := fun _ => rfl
  unfold flatten at hpieces ⊢
  apply List.flatMap_congr
  intro atom _
  rw [hpieces, List.flatMap_singleton]

variable {op}

theorem pieces_of_heads_eq_false {atom : Atom} (h : op.heads atom = false) :
    op.pieces atom = [atom] := by
  unfold pieces flatten
  rw [List.flatMap_singleton]
  unfold heads at h
  split
  · simp only at h
    rw [h]
    simp
  · rfl

theorem pieces_application {inner : Operator Atom} (h : (inner == op) = true) (mark : Mark)
    (argument : Atom) (bound : Bindings) (outerMark : Mark) :
    op.pieces (.application (.operator inner mark) argument bound outerMark) =
      argument.elements?.getD [argument] := by
  simp [pieces, flatten, h]

theorem flatten_of_flat {list : List Atom} (h : op.Flat list) : op.flatten list = list := by
  rw [flatten_eq_flatMap]
  have hpieces : ∀ atom ∈ list, op.pieces atom = [atom] :=
    fun atom hatom => pieces_of_heads_eq_false (h.heads atom hatom)
  rw [List.flatMap_congr hpieces]
  simp

theorem simplify_eq_filter (h : op.properties.isIdempotent = false) (list : List Atom) :
    op.simplify list = (op.flatten list).filter (!op.isUnit ·) := by
  unfold simplify isUnit
  rw [h]
  cases op.properties.identity with
  | none => simp
  | some identity => rfl

/-- The application that stands where nothing is evaluated. -/
def assembled (op : Operator Atom) (arguments : List Atom) (bound : Bindings) : Atom :=
  .application (.operator op .new) (.sequence (.ofList op.properties arguments) .new) bound .new

/-- How many arguments the operator takes once they are flattened. -/
structure Accepts (op : Operator Atom) (n : Nat) : Prop where
  exact : op.properties.isAssociative = false → n = op.parameters.length
  enough : op.properties.isAssociative = true → op.parameters.length ≤ n
  empty : op.properties.isAssociative = true → op.parameters = [] → n = 0
  several : op.properties.isAssociative = true → n ≠ 1
  unit : op.properties.isAssociative = true → n = 0 → op.properties.identity = none

section

variable {natives : Natives} {evaluate : GuardEvaluator}

/-- What an associative operator comes to: its absorber, its identity, a single argument, or a
dispatch of its padded parameters. -/
theorem applyAssociative_inv {list : List Atom} {result : Atom}
    (hresult : (op.applyAssociative natives evaluate list).result = .ok result) :
    (∃ atom ∈ op.simplify list, op.absorbs atom = true ∧ op.properties.absorber = some result) ∨
      (∀ atom ∈ op.simplify list, op.absorbs atom = false) ∧
        ((op.simplify list = [] ∧ op.properties.identity = some result) ∨
          op.simplify list = [result] ∨
          (op.simplify list).length ≠ 1 ∧
            (op.simplify list = [] → op.properties.identity = none) ∧
            ∃ padded, (op.paddedParameters evaluate (op.simplify list).length).result = .ok padded ∧
              (op.dispatch natives evaluate padded (op.simplify list)).result = .ok result) := by
  unfold applyAssociative at hresult
  simp only at hresult
  split at hresult
  · rename_i absorber habsorber
    simp only [Evaluation.result_bind_eq_ok_iff, Evaluation.result_pure, Except.ok.injEq] at hresult
    rcases hresult with ⟨-, -, rfl⟩
    rw [Option.filter_eq_some_iff, List.any_eq_true] at habsorber
    rcases habsorber with ⟨hdeclared, atom, hatom, hequal⟩
    exact Or.inl ⟨atom, hatom, by rw [absorbs, hdeclared]; exact hequal, hdeclared⟩
  · rename_i habsorber
    refine Or.inr ⟨?_, ?_⟩
    · intro atom hatom
      rw [absorbs, Option.any_eq_false]
      intro absorber hdeclared
      rw [Option.filter_eq_none_iff] at habsorber
      have hnone := habsorber absorber hdeclared
      rw [Bool.not_eq_true, List.any_eq_false] at hnone
      exact Bool.eq_false_iff.mpr (hnone atom hatom)
    · split at hresult
      · rename_i harguments hidentity
        simp only [Evaluation.result_bind_eq_ok_iff, Evaluation.result_pure,
          Except.ok.injEq] at hresult
        rcases hresult with ⟨-, -, rfl⟩
        exact Or.inl ⟨harguments, hidentity⟩
      · rename_i harguments
        simp only [Evaluation.result_bind_eq_ok_iff, Evaluation.result_pure,
          Except.ok.injEq] at hresult
        rcases hresult with ⟨-, -, rfl⟩
        exact Or.inr (Or.inl harguments)
      · rename_i hsingle hidentity
        rw [Evaluation.result_bind_eq_ok_iff] at hresult
        refine Or.inr (Or.inr ⟨?_, ?_, hresult⟩)
        · intro hlength
          rcases List.length_eq_one_iff.mp hlength with ⟨argument, hargument⟩
          exact hsingle argument hargument
        · intro hnone
          cases hdeclared : op.properties.identity with
          | none => rfl
          | some identity => exact absurd hdeclared (hidentity identity hnone)

theorem dispatch_eq_ok_iff (h : op.native = none) {parameters arguments : List Atom}
    {result : Atom} :
    (op.dispatch natives evaluate parameters arguments).result = .ok result ↔
      ∃ bound, (op.bindParameters evaluate parameters arguments).result = .ok bound ∧
        result = op.assembled arguments bound := by
  unfold dispatch
  rw [Evaluation.result_bind_eq_ok_iff]
  have hcall : ∀ bound, (evaluateCall natives ⟨op, .ofList op.properties arguments, bound⟩).result =
      .ok (op.assembled arguments bound) := by
    intro bound
    unfold evaluateCall
    simp only [h, Option.bind_none]
    rfl
  simp only [hcall, Except.ok.injEq, eq_comm]

end

namespace Plain

variable {natives : Natives} {evaluate : GuardEvaluator} {list : List Atom} {result : Atom}

theorem filter_absorber (arguments : List Atom)
    (h : ∀ atom ∈ arguments, op.absorbs atom = false) :
    (op.properties.absorber.filter fun absorber => arguments.any (· == absorber)) = none := by
  unfold absorbs at h
  cases habsorber : op.properties.absorber with
  | none => rfl
  | some absorber =>
      rw [habsorber] at h
      simp only [Option.any_some] at h
      simpa [Option.filter] using h

theorem applyAssociative_cases (h : op.Plain) (hassociative : op.properties.isAssociative = true)
    (hresult : (op.applyAssociative natives evaluate list).result = .ok result) :
    op.properties.absorber = some result ∨
      (∀ atom ∈ op.simplify list, op.absorbs atom = false) ∧
        ((op.simplify list = [] ∧ op.properties.identity = some result) ∨
          op.simplify list = [result] ∨
          op.Accepts (op.simplify list).length ∧
            ∃ bound, result = op.assembled (op.simplify list) bound) := by
  rcases applyAssociative_inv hresult with
    ⟨-, -, -, habsorber⟩ | ⟨habsorbs, hunit | hsingle | ⟨hlone, hunit, padded, hpadded, hresult⟩⟩
  · exact Or.inl habsorber
  · exact Or.inr ⟨habsorbs, Or.inl hunit⟩
  · exact Or.inr ⟨habsorbs, Or.inr (Or.inl hsingle)⟩
  · rw [dispatch_eq_ok_iff h.native] at hresult
    rcases hresult with ⟨bound, hbound, rfl⟩
    have hlength := length_eq_of_bindParameters hbound
    rcases h.length_paddedParameters hpadded with ⟨henough, hnone⟩
    refine Or.inr ⟨habsorbs, Or.inr (Or.inr ⟨⟨?_, ?_, ?_, ?_, ?_⟩, bound, rfl⟩)⟩
    · intro hno
      rw [hassociative] at hno
      cases hno
    · intro _
      rwa [← hlength]
    · intro _ hnil
      rw [← hlength, hnone hnil]
      rfl
    · exact fun _ => hlone
    · exact fun _ hzero => hunit (List.length_eq_zero_iff.mp hzero)

theorem applyAssociative_ok (h : op.Plain) (hassociative : op.properties.isAssociative = true)
    (habsorbs : ∀ atom ∈ op.simplify list, op.absorbs atom = false)
    (haccepts : op.Accepts (op.simplify list).length) :
    ∃ bound, (op.applyAssociative natives evaluate list).result =
      .ok (op.assembled (op.simplify list) bound) := by
  rcases @Plain.paddedParameters_ok _ evaluate h _ (haccepts.enough hassociative)
    (haccepts.empty hassociative) with ⟨padded, hpadded, hlength, hfree, hdistinct⟩
  rcases @bindParameters_ok op _ _ _ (@exists_mem_matchAll_free evaluate _ _ _ hfree hdistinct
    (fun _ _ => NameMap.find?_empty _) hlength) with ⟨bound, hbound⟩
  refine ⟨bound, ?_⟩
  unfold applyAssociative
  simp only [filter_absorber _ habsorbs]
  split
  · rename_i identity harguments hidentity
    have hnone := haccepts.unit hassociative (by rw [harguments]; rfl)
    rw [hidentity] at hnone
    cases hnone
  · rename_i argument harguments
    exact absurd (by rw [harguments]; rfl) (haccepts.several hassociative)
  · rw [Evaluation.result_bind_eq_ok_iff]
    exact ⟨padded, hpadded, (dispatch_eq_ok_iff h.native).mpr ⟨bound, hbound, rfl⟩⟩

end Plain

/-!
## Application

A plain operator takes every list of arguments that it accepts, and what it declares can be asked
for.
-/

/-- The arguments that are left of a list before the operator is applied to them. -/
def settled (op : Operator Atom) (list : List Atom) : List Atom :=
  if op.properties.isAssociative then op.simplify list else list

namespace Plain

variable {natives : Natives} {evaluate : GuardEvaluator} {s : Sequence Atom} {mark : Mark}
  {result : Atom}

theorem arguments_sequence (hrequest : op.mismatch? s.properties = none) :
    op.arguments (.sequence s mark) = .value s.elements := by
  simp only [arguments, hrequest]

theorem applyWith_cases (h : op.Plain) (hrequest : op.mismatch? s.properties = none)
    (hresult : (op.applyWith natives evaluate (.sequence s mark)).result = .ok result) :
    (op.properties.isAssociative = true ∧ (op.properties.absorber = some result ∨
        op.properties.identity = some result ∨ op.settled s.elements = [result])) ∨
      ((op.properties.isAssociative = true →
          ∀ atom ∈ op.settled s.elements, op.absorbs atom = false) ∧
        op.Accepts (op.settled s.elements).length ∧
        ∃ bound, result = op.assembled (op.settled s.elements) bound) := by
  unfold applyWith at hresult
  rw [arguments_sequence hrequest] at hresult
  change (Evaluation.andThen (Evaluation.value s.elements) _).result = _ at hresult
  rw [Evaluation.value_andThen] at hresult
  unfold settled
  cases hassociative : op.properties.isAssociative with
  | true =>
      simp only [hassociative, if_true] at hresult
      rcases h.applyAssociative_cases hassociative hresult with
        habsorber | ⟨habsorbs, ⟨-, hidentity⟩ | hsingle | ⟨haccepts, hbound⟩⟩
      · exact Or.inl ⟨rfl, Or.inl habsorber⟩
      · exact Or.inl ⟨rfl, Or.inr (Or.inl hidentity)⟩
      · exact Or.inl ⟨rfl, Or.inr (Or.inr hsingle)⟩
      · exact Or.inr ⟨fun _ => habsorbs, haccepts, hbound⟩
  | false =>
      simp only [hassociative, Bool.false_eq_true, if_false] at hresult
      rw [dispatch_eq_ok_iff h.native] at hresult
      rcases hresult with ⟨bound, hbound, rfl⟩
      refine Or.inr ⟨by simp, ⟨?_, by simp [hassociative], by simp [hassociative],
        by simp [hassociative], by simp [hassociative]⟩, bound, rfl⟩
      intro _
      exact (length_eq_of_bindParameters hbound).symm

theorem applyWith_ok (h : op.Plain) (hrequest : op.mismatch? s.properties = none)
    (habsorbs : op.properties.isAssociative = true →
      ∀ atom ∈ op.settled s.elements, op.absorbs atom = false)
    (haccepts : op.Accepts (op.settled s.elements).length) :
    ∃ bound, (op.applyWith natives evaluate (.sequence s mark)).result =
      .ok (op.assembled (op.settled s.elements) bound) := by
  unfold applyWith
  rw [arguments_sequence hrequest]
  change ∃ bound, (Evaluation.andThen (Evaluation.value s.elements) _).result = _
  rw [Evaluation.value_andThen]
  unfold settled at habsorbs haccepts ⊢
  cases hassociative : op.properties.isAssociative with
  | true =>
      simp only [hassociative, if_true] at habsorbs haccepts ⊢
      exact h.applyAssociative_ok hassociative (habsorbs trivial) haccepts
  | false =>
      simp only [hassociative, Bool.false_eq_true, if_false] at haccepts ⊢
      rcases @bindParameters_ok op _ _ _ (@exists_mem_matchAll_free evaluate _ _ _ h.isFree
        h.distinct (fun _ _ => NameMap.find?_empty _) (haccepts.exact hassociative).symm) with
        ⟨bound, hbound⟩
      exact ⟨bound, (dispatch_eq_ok_iff h.native).mpr ⟨bound, hbound, rfl⟩⟩

end Plain

@[simp] theorem mismatch?_none (op : Operator Atom) : op.mismatch? .none = none := rfl

theorem mismatch?_of_declared {op : Operator Atom} {requested : Properties}
    (h : ∀ law value, requested.get law = some value → (op.declared? law == some value) = true) :
    op.mismatch? requested = none := by
  unfold mismatch?
  rw [List.findSome?_eq_none_iff]
  rintro ⟨law, value⟩ hmem
  rcases List.mem_filterMap.mp hmem with ⟨other, -, hsome⟩
  rcases Option.map_eq_some_iff.mp hsome with ⟨found, hget, heq⟩
  cases heq
  exact if_pos (h law value hget)

theorem declared?_of_get {op : Operator Atom} {law : Law} {value : Atom}
    (h : op.properties.get law = some value) : op.declared? law = some value := by
  unfold declared? PropertySet.effective?
  rw [h]

@[simp] theorem mismatch?_properties (op : Operator Atom) :
    op.mismatch? op.properties = none := by
  refine mismatch?_of_declared fun law value hget => ?_
  rw [declared?_of_get hget]
  exact beq_refl value

end Operator

namespace Engine

variable {engine : Engine} {place : Place} {op : Operator Atom} {mark : Mark} {argument : Atom}

theorem applyAt_operator (h : engine.nesting ≠ 0) :
    ∃ evaluate, engine.applyAt place (.operator op mark) argument =
      op.applyWith engine.natives evaluate argument := by
  rcases engine with ⟨natives, nesting, start⟩
  cases nesting with
  | zero => exact absurd rfl h
  | succ nesting => exact ⟨_, rfl⟩

theorem exists_of_applyAt_ok {result : Atom}
    (h : (engine.applyAt place (.operator op mark) argument).result = .ok result) :
    ∃ evaluate, (op.applyWith engine.natives evaluate argument).result = .ok result := by
  rcases engine with ⟨natives, nesting, start⟩
  cases nesting with
  | zero => cases h
  | succ nesting => exact ⟨_, h⟩

end Engine

end Equational
