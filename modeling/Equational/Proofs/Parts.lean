import Equational.Atom.Basic

/-!
# Parts of atoms

The parts of an atom are the atoms that it is built from: types and guards,
parameters and bodies, elements and the values of laws, what operators declare,
heads and arguments.  What applications store is no part.

What is true of an atom as soon as it is true of its parts is true of every atom.
Likewise, whatever is computed for an atom from what is computed for its parts is
an instance of one fold.  It also visits the parts that count, each in the place
where it stands, and so gathers what they have of their own.
-/

namespace Equational

namespace PropertySet

variable {α : Type} {s : PropertySet α} {value : α}

def values (s : PropertySet α) : List α :=
  s.associative.toList ++ (s.commutative.toList ++ (s.idempotent.toList ++
    (s.absorber.toList ++ s.identity.toList)))

theorem mem_values : value ∈ s.values ↔ ∃ law, s.get law = some value := by
  simp only [values, List.mem_append, Option.mem_toList]
  constructor
  · rintro (h | h | h | h | h)
    · exact ⟨.associative, h⟩
    · exact ⟨.commutative, h⟩
    · exact ⟨.idempotent, h⟩
    · exact ⟨.absorber, h⟩
    · exact ⟨.identity, h⟩
  · rintro ⟨law, h⟩
    cases law <;> simp only [get] at h <;> simp only [h, true_or, or_true]

theorem forall_mem_values {q : α → Prop} :
    (∀ value ∈ s.values, q value) ↔ ∀ law, ∀ value ∈ s.get law, q value := by
  simp only [mem_values, Option.mem_def, forall_exists_index]
  exact forall_comm

def map {β : Type} (f : α → β) (s : PropertySet α) : PropertySet β :=
  ⟨s.associative.map f, s.commutative.map f, s.idempotent.map f, s.absorber.map f, s.identity.map f⟩

theorem get_map {β : Type} (f : α → β) (law : Law) : (s.map f).get law = (s.get law).map f := by
  cases law <;> rfl

theorem map_id (s : PropertySet α) : s.map (fun value => value) = s := by
  simp only [map, Option.map_id']

theorem map_map {β γ : Type} (f : α → β) (g : β → γ) : (s.map f).map g = s.map (g ∘ f) := by
  simp only [map, Option.map_map]

theorem values_map {β : Type} (f : α → β) : (s.map f).values = s.values.map f := by
  simp only [values, map, List.map_append, Option.toList_map]

theorem map_congr {β : Type} {f g : α → β} (h : ∀ value ∈ s.values, f value = g value) :
    s.map f = s.map g := by
  have hlaw (law : Law) : (s.get law).map f = (s.get law).map g :=
    Option.map_congr fun value hvalue => h value (mem_values.mpr ⟨law, hvalue⟩)
  rw [map, map, mk.injEq]
  exact ⟨hlaw .associative, hlaw .commutative, hlaw .idempotent, hlaw .absorber, hlaw .identity⟩

theorem sizeOf_lt_of_mem_values [SizeOf α] (h : value ∈ s.values) : sizeOf value < sizeOf s := by
  rcases mem_values.mp h with ⟨law, hlaw⟩
  cases s
  cases law <;> cases hlaw <;> simp only [mk.sizeOf_spec, Option.some.sizeOf_spec] <;> omega

end PropertySet

/-!
## Induction over the parts
-/

/-- Where a part stands in an atom. -/
inductive Role where
  | type
  | guard
  | parameter
  | body
  | law
  | element
  /-- A formal parameter of an operator. -/
  | formal
  /-- The value of a law of an operator. -/
  | declared
  /-- The result type of an operator. -/
  | result
  | head
  | argument

/-- The parts in which an atom shows its pattern variables: none of those that say of which type a
variable is, or what an operator is. -/
def Role.isShown : Role → Bool
  | .body | .law | .element | .head | .argument => true
  | .type | .guard | .parameter | .formal | .declared | .result => false

namespace Atom

def parts : Atom → List (Role × Atom)
  | typeUniverse _ | root .. => []
  | literal _ type _ => [(.type, type)]
  | var _ type guard _ _ => (.type, type) :: guard.toList.map (.guard, ·)
  | lambda parameter body _ => [(.parameter, parameter), (.body, body)]
  | sequence s _ => s.properties.values.map (.law, ·) ++ s.elements.map (.element, ·)
  | propertySet properties _ => properties.values.map (.law, ·)
  | operator op _ =>
    op.properties.values.map (.declared, ·) ++
      (op.parameters.map (.formal, ·) ++ op.resultType.toList.map (.result, ·))
  | application head argument _ _ => [(.head, head), (.argument, argument)]

theorem sizeOf_lt_of_mem_parts (atom : Atom) :
    ∀ part ∈ atom.parts, sizeOf part.2 < sizeOf atom := by
  cases atom with
  | typeUniverse mark => exact List.forall_mem_nil _
  | root name mark => exact List.forall_mem_nil _
  | literal value type mark =>
      rw [parts, List.forall_mem_singleton, literal.sizeOf_spec]
      dsimp only
      omega
  | var name type guard index mark =>
      simp only [parts, List.forall_mem_cons, List.forall_mem_map, Option.mem_toList,
        var.sizeOf_spec]
      refine ⟨by omega, fun atom hatom => ?_⟩
      rw [hatom, Option.some.sizeOf_spec]
      omega
  | lambda parameter body mark =>
      rw [parts, List.forall_mem_cons, List.forall_mem_singleton, lambda.sizeOf_spec]
      dsimp only
      omega
  | sequence s mark =>
      rcases s with ⟨properties, elements⟩
      simp only [parts, List.forall_mem_append, List.forall_mem_map, sequence.sizeOf_spec,
        Sequence.mk.sizeOf_spec]
      constructor
      · intro value hvalue
        have hlt := PropertySet.sizeOf_lt_of_mem_values hvalue
        omega
      · intro atom hatom
        have hlt := List.sizeOf_lt_of_mem hatom
        omega
  | propertySet properties mark =>
      simp only [parts, List.forall_mem_map, propertySet.sizeOf_spec]
      intro value hvalue
      have hlt := PropertySet.sizeOf_lt_of_mem_values hvalue
      omega
  | operator op mark =>
      rcases op with ⟨name, properties, parameters, resultType, native⟩
      simp only [parts, List.forall_mem_append, List.forall_mem_map, Option.mem_toList,
        operator.sizeOf_spec, Operator.mk.sizeOf_spec]
      refine ⟨fun value hvalue => ?_, fun parameter hparameter => ?_, fun result hresult => ?_⟩
      · have hlt := PropertySet.sizeOf_lt_of_mem_values hvalue
        omega
      · have hlt := List.sizeOf_lt_of_mem hparameter
        omega
      · rw [hresult, Option.some.sizeOf_spec]
        omega
  | application head argument bound mark =>
      rw [parts, List.forall_mem_cons, List.forall_mem_singleton, application.sizeOf_spec]
      dsimp only
      omega

@[elab_as_elim]
theorem parts_induction {motive : Atom → Prop}
    (step : ∀ atom, (∀ part ∈ atom.parts, motive part.2) → motive atom) (atom : Atom) :
    motive atom :=
  step atom fun part _ => parts_induction step part.2
termination_by atom
decreasing_by exact sizeOf_lt_of_mem_parts _ _ ‹_›

/-!
## Folds

What is computed for an atom from its parts, what is visited on the way to them, and what is
gathered there.
-/

section

variable {β : Type} (f : Atom → List (Role × β) → β)

mutual

/-- What is computed for an atom from what is computed for its parts. -/
def fold : Atom → β
  | typeUniverse mark => f (typeUniverse mark) []
  | root name mark => f (root name mark) []
  | literal value type mark => f (literal value type mark) [(.type, fold type)]
  | var name type guard index mark =>
    f (var name type guard index mark) ((.type, fold type) :: optionFold .guard guard)
  | lambda parameter body mark =>
    f (lambda parameter body mark) [(.parameter, fold parameter), (.body, fold body)]
  | sequence ⟨properties, elements⟩ mark =>
    f (sequence ⟨properties, elements⟩ mark)
      (propertiesFold .law properties ++ listFold .element elements)
  | propertySet properties mark => f (propertySet properties mark) (propertiesFold .law properties)
  | operator ⟨name, properties, parameters, resultType, native⟩ mark =>
    f (operator ⟨name, properties, parameters, resultType, native⟩ mark)
      (propertiesFold .declared properties ++
        (listFold .formal parameters ++ optionFold .result resultType))
  | application head argument bound mark =>
    f (application head argument bound mark) [(.head, fold head), (.argument, fold argument)]

def listFold (role : Role) : List Atom → List (Role × β)
  | [] => []
  | atom :: rest => (role, fold atom) :: listFold role rest

def optionFold (role : Role) : Option Atom → List (Role × β)
  | none => []
  | some atom => [(role, fold atom)]

def propertiesFold (role : Role) : PropertySet Atom → List (Role × β)
  | ⟨a, c, i, b, d⟩ =>
    optionFold role a ++ (optionFold role c ++ (optionFold role i ++
      (optionFold role b ++ optionFold role d)))

end

variable (role : Role)

theorem listFold_eq_map (list : List Atom) :
    listFold f role list = list.map fun atom => (role, fold f atom) := by
  induction list with
  | nil => rfl
  | cons atom rest ih => rw [listFold, ih, List.map_cons]

theorem optionFold_eq_map (value : Option Atom) :
    optionFold f role value = value.toList.map fun atom => (role, fold f atom) := by
  cases value <;> rfl

theorem propertiesFold_eq_map (properties : Properties) :
    propertiesFold f role properties = properties.values.map fun atom => (role, fold f atom) := by
  rcases properties with ⟨a, c, i, b, d⟩
  simp only [propertiesFold, optionFold_eq_map, PropertySet.values, List.map_append]

theorem fold_eq (atom : Atom) :
    atom.fold f = f atom (atom.parts.map fun part => (part.1, part.2.fold f)) := by
  cases atom with
  | var name type guard index mark =>
      rw [fold, optionFold_eq_map, parts, List.map_cons, List.map_map]
      rfl
  | sequence s mark =>
      rcases s with ⟨properties, elements⟩
      rw [fold, propertiesFold_eq_map, listFold_eq_map, parts, List.map_append, List.map_map,
        List.map_map]
      rfl
  | propertySet properties mark =>
      rw [fold, propertiesFold_eq_map, parts, List.map_map]
      rfl
  | operator op mark =>
      rcases op with ⟨name, properties, parameters, resultType, native⟩
      rw [fold, propertiesFold_eq_map, listFold_eq_map, optionFold_eq_map, parts, List.map_append,
        List.map_append, List.map_map, List.map_map, List.map_map]
      rfl
  | _ => rfl

end

section

variable {σ : Type} (enter : σ → Atom → Role → Option σ)

/-- An atom and those of its parts that are entered, each with the place where it stands. -/
def visited (place : σ) (atom : Atom) : List (σ × Atom) :=
  atom.fold (fun atom visits place => (place, atom) ::
    visits.flatMap fun visit => (enter place atom visit.1).elim [] visit.2) place

variable {enter} {place : σ} {atom : Atom}

theorem visited_eq : atom.visited enter place = (place, atom) :: atom.parts.flatMap fun part =>
    (enter place atom part.1).elim [] fun inner => part.2.visited enter inner := by
  rw [visited, fold_eq, List.flatMap_map]
  rfl

theorem mem_visited {visit : σ × Atom} : visit ∈ atom.visited enter place ↔
    visit = (place, atom) ∨ ∃ part ∈ atom.parts, ∃ inner,
      enter place atom part.1 = some inner ∧ visit ∈ part.2.visited enter inner := by
  rw [visited_eq, List.mem_cons, List.mem_flatMap]
  refine or_congr_right (exists_congr fun part => and_congr_right fun _ => ?_)
  cases enter place atom part.1 <;> simp

theorem self_mem_visited : (place, atom) ∈ atom.visited enter place := mem_visited.mpr (.inl rfl)

theorem visited_subset {part : Role × Atom} (hpart : part ∈ atom.parts) {inner : σ}
    (hinner : enter place atom part.1 = some inner) :
    part.2.visited enter inner ⊆ atom.visited enter place :=
  fun _ hvisit => mem_visited.mpr (.inr ⟨part, hpart, inner, hinner, hvisit⟩)

theorem forall_mem_visited {p : σ × Atom → Prop} : (∀ visit ∈ atom.visited enter place, p visit) ↔
    p (place, atom) ∧ ∀ part ∈ atom.parts, ∀ inner, enter place atom part.1 = some inner →
      ∀ visit ∈ part.2.visited enter inner, p visit := by
  constructor
  · exact fun h => ⟨h _ self_mem_visited, fun part hpart inner hinner visit hvisit =>
      h visit (visited_subset hpart hinner hvisit)⟩
  · rintro ⟨hself, hparts⟩ visit hvisit
    rcases mem_visited.mp hvisit with rfl | ⟨part, hpart, inner, hinner, hvisit⟩
    · exact hself
    · exact hparts part hpart inner hinner visit hvisit

end

section

variable {β : Type}

/-- What an atom has of its own, and what is gathered from those of its parts that count. -/
def gather (counts : Atom → Role → Bool) (own : Atom → List β) (atom : Atom) : List β :=
  (atom.visited (fun _ atom role => if counts atom role then some () else none) ()).flatMap
    fun visit => own visit.2

variable {counts : Atom → Role → Bool} {own : Atom → List β} {atom : Atom}

theorem gather_eq (atom : Atom) : atom.gather counts own = own atom ++
    (atom.parts.filter fun part => counts atom part.1).flatMap fun part =>
      part.2.gather counts own := by
  rw [gather, visited_eq, List.flatMap_cons, List.flatMap_assoc]
  congr 1
  induction atom.parts with
  | nil => rfl
  | cons part rest ih =>
      rw [List.flatMap_cons, List.filter_cons, ih]
      split
      · rw [List.flatMap_cons]
        rfl
      · rfl

theorem mem_gather {x : β} : x ∈ atom.gather counts own ↔ x ∈ own atom ∨
    ∃ part ∈ atom.parts, counts atom part.1 = true ∧ x ∈ part.2.gather counts own := by
  rw [gather_eq, List.mem_append, List.mem_flatMap]
  simp only [List.mem_filter, and_assoc]

theorem gather_eq_nil_iff : atom.gather counts own = [] ↔ own atom = [] ∧
    ∀ part ∈ atom.parts, counts atom part.1 = true → part.2.gather counts own = [] := by
  rw [gather_eq, List.append_eq_nil_iff, List.flatMap_eq_nil_iff]
  simp only [List.mem_filter, and_imp]

end

/-!
## Rebuilding

An atom that is rebuilt keeps its shape: every part that is entered is rebuilt in its place, and
then the atom itself is changed.
-/

section

/-- The atom with other parts in the same places. -/
def mapParts (f : Role → Atom → Atom) : Atom → Atom
  | typeUniverse mark => typeUniverse mark
  | root name mark => root name mark
  | literal value type mark => literal value (f .type type) mark
  | var name type guard index mark => var name (f .type type) (guard.map (f .guard)) index mark
  | lambda parameter body mark => lambda (f .parameter parameter) (f .body body) mark
  | sequence s mark => sequence ⟨s.properties.map (f .law), s.elements.map (f .element)⟩ mark
  | propertySet properties mark => propertySet (properties.map (f .law)) mark
  | operator op mark =>
    operator ⟨op.name, op.properties.map (f .declared), op.parameters.map (f .formal),
      op.resultType.map (f .result), op.native⟩ mark
  | application head argument bound mark =>
    application (f .head head) (f .argument argument) bound mark

variable {f g : Role → Atom → Atom} {atom : Atom}

theorem parts_mapParts :
    (atom.mapParts f).parts = atom.parts.map fun part => (part.1, f part.1 part.2) := by
  cases atom <;> simp [mapParts, parts, PropertySet.values_map, Option.toList_map,
    Function.comp_def]

theorem mapParts_mapParts :
    (atom.mapParts f).mapParts g = atom.mapParts fun role part => g role (f role part) := by
  cases atom <;> simp [mapParts, PropertySet.map_map, Function.comp_def]

theorem mapParts_congr (h : ∀ part ∈ atom.parts, f part.1 part.2 = g part.1 part.2) :
    atom.mapParts f = atom.mapParts g := by
  cases atom with
  | typeUniverse mark => rfl
  | root name mark => rfl
  | literal value type mark =>
      simp only [parts, List.forall_mem_singleton] at h
      simp only [mapParts, h]
  | var name type guard index mark =>
      simp only [parts, List.forall_mem_cons, List.forall_mem_map, Option.mem_toList] at h
      simp only [mapParts, h.1, Option.map_congr h.2]
  | lambda parameter body mark =>
      simp only [parts, List.forall_mem_cons] at h
      simp only [mapParts, h.1, h.2.1]
  | sequence s mark =>
      simp only [parts, List.forall_mem_append, List.forall_mem_map] at h
      simp only [mapParts, PropertySet.map_congr h.1, List.map_congr_left h.2]
  | propertySet properties mark =>
      simp only [parts, List.forall_mem_map] at h
      simp only [mapParts, PropertySet.map_congr h]
  | operator op mark =>
      simp only [parts, List.forall_mem_append, List.forall_mem_map, Option.mem_toList] at h
      simp only [mapParts, PropertySet.map_congr h.1, List.map_congr_left h.2.1,
        Option.map_congr h.2.2]
  | application head argument bound mark =>
      simp only [parts, List.forall_mem_cons] at h
      simp only [mapParts, h.1, h.2.1]

theorem mapParts_id (atom : Atom) : (atom.mapParts fun _ part => part) = atom := by
  cases atom <;> simp [mapParts, PropertySet.map_id]

end

section

variable (enters : Atom → Role → Bool) (own : Atom → Atom)

mutual

/-- What is made of an atom when what is made of the parts that are entered is put in their
place. -/
def rebuild : Atom → Atom
  | typeUniverse mark => own (typeUniverse mark)
  | root name mark => own (root name mark)
  | literal value type mark =>
    own (literal value
      (bif enters (literal value type mark) .type then rebuild type else type) mark)
  | var name type guard index mark =>
    own (var name
      (bif enters (var name type guard index mark) .type then rebuild type else type)
      (optionRebuild (enters (var name type guard index mark) .guard) guard) index mark)
  | lambda parameter body mark =>
    own (lambda
      (bif enters (lambda parameter body mark) .parameter then rebuild parameter else parameter)
      (bif enters (lambda parameter body mark) .body then rebuild body else body) mark)
  | sequence ⟨properties, elements⟩ mark =>
    own (sequence
      ⟨propertiesRebuild (enters (sequence ⟨properties, elements⟩ mark) .law) properties,
        listRebuild (enters (sequence ⟨properties, elements⟩ mark) .element) elements⟩ mark)
  | propertySet properties mark =>
    own (propertySet
      (propertiesRebuild (enters (propertySet properties mark) .law) properties) mark)
  | operator ⟨name, properties, parameters, resultType, native⟩ mark =>
    let op := operator ⟨name, properties, parameters, resultType, native⟩ mark
    own (operator ⟨name, propertiesRebuild (enters op .declared) properties,
      listRebuild (enters op .formal) parameters, optionRebuild (enters op .result) resultType,
      native⟩ mark)
  | application head argument bound mark =>
    own (application
      (bif enters (application head argument bound mark) .head then rebuild head else head)
      (bif enters (application head argument bound mark) .argument then rebuild argument
        else argument) bound mark)

def listRebuild (entered : Bool) : List Atom → List Atom
  | [] => []
  | atom :: rest => (bif entered then rebuild atom else atom) :: listRebuild entered rest

def optionRebuild (entered : Bool) : Option Atom → Option Atom
  | none => none
  | some atom => some (bif entered then rebuild atom else atom)

def propertiesRebuild (entered : Bool) : PropertySet Atom → PropertySet Atom
  | ⟨a, c, i, b, d⟩ =>
    ⟨optionRebuild entered a, optionRebuild entered c, optionRebuild entered i,
      optionRebuild entered b, optionRebuild entered d⟩

end

variable (entered : Bool)

theorem listRebuild_eq_map (list : List Atom) : listRebuild enters own entered list =
    list.map fun atom => bif entered then rebuild enters own atom else atom := by
  induction list with
  | nil => rfl
  | cons atom rest ih => rw [listRebuild, ih, List.map_cons]

theorem optionRebuild_eq_map (value : Option Atom) : optionRebuild enters own entered value =
    value.map fun atom => bif entered then rebuild enters own atom else atom := by
  cases value <;> rfl

theorem propertiesRebuild_eq_map (properties : Properties) :
    propertiesRebuild enters own entered properties =
      properties.map fun atom => bif entered then rebuild enters own atom else atom := by
  rcases properties with ⟨a, c, i, b, d⟩
  simp only [propertiesRebuild, optionRebuild_eq_map, PropertySet.map]

theorem rebuild_eq (atom : Atom) : atom.rebuild enters own = own (atom.mapParts fun role part =>
    bif enters atom role then part.rebuild enters own else part) := by
  cases atom with
  | var name type guard index mark => rw [rebuild, optionRebuild_eq_map, mapParts]
  | sequence s mark =>
      rcases s with ⟨properties, elements⟩
      rw [rebuild, propertiesRebuild_eq_map, listRebuild_eq_map, mapParts]
  | propertySet properties mark => rw [rebuild, propertiesRebuild_eq_map, mapParts]
  | operator op mark =>
      rcases op with ⟨name, properties, parameters, resultType, native⟩
      rw [rebuild, propertiesRebuild_eq_map, listRebuild_eq_map, optionRebuild_eq_map, mapParts]
  | _ => rfl

end

/-!
## What atoms show

An atom is constant if it is no pattern variable and shows none.  Beyond what is shown, rewriting
looks into the types and guards of pattern variables.
-/

def variableName? : Atom → Option String
  | var name _ _ _ _ => some name
  | _ => none

/-- The parts in which rewriting looks for names: those that an atom shows, and the type and the
guard of a pattern variable. -/
def reaches (atom : Atom) : Role → Bool
  | .type | .guard => atom.isFreeVar
  | role => role.isShown

def freeName : Atom → List String
  | var name _ _ index _ => if index = 0 then [name] else []
  | _ => []

theorem listConstant_iff {list : List Atom} :
    listConstant list = true ↔ ∀ atom ∈ list, atom.isConstant = true := by
  induction list with
  | nil => exact iff_of_true rfl (List.forall_mem_nil _)
  | cons atom rest ih => rw [listConstant, Bool.and_eq_true, ih, List.forall_mem_cons]

theorem optionConstant_iff {value : Option Atom} :
    optionConstant value = true ↔ ∀ atom ∈ value.toList, atom.isConstant = true := by
  cases value with
  | none => exact iff_of_true rfl (List.forall_mem_nil _)
  | some atom =>
      rw [Option.toList_some, List.forall_mem_singleton]
      rfl

theorem propertiesConstant_iff {properties : Properties} :
    propertiesConstant properties = true ↔
      ∀ value ∈ properties.values, value.isConstant = true := by
  rcases properties with ⟨a, c, i, b, d⟩
  simp only [propertiesConstant, Bool.and_eq_true, optionConstant_iff, PropertySet.values,
    List.forall_mem_append, and_assoc]

theorem isConstant_iff {atom : Atom} : atom.isConstant = true ↔ atom.freeName = [] ∧
    ∀ part ∈ atom.parts, part.1.isShown = true → part.2.isConstant = true := by
  cases atom with
  | var name type guard index mark =>
      by_cases hindex : index = 0 <;> simp [isConstant, freeName, parts, Role.isShown, hindex]
  | sequence s mark =>
      rcases s with ⟨properties, elements⟩
      simp [isConstant, freeName, parts, Role.isShown, propertiesConstant_iff, listConstant_iff,
        or_imp, forall_and]
  | propertySet properties mark =>
      simp [isConstant, freeName, parts, Role.isShown, propertiesConstant_iff]
  | operator op mark => simp [isConstant, freeName, parts, Role.isShown, or_imp, forall_and]
  | _ => simp [isConstant, freeName, parts, Role.isShown]

theorem isConstant_of_reaches {atom : Atom} (h : atom.isConstant = true) {part : Role × Atom}
    (hpart : part ∈ atom.parts) (hreach : atom.reaches part.1 = true) :
    part.2.isConstant = true := by
  have hshown : part.1.isShown = true ∨ atom.isFreeVar = true := by
    revert hreach
    cases part.1 <;> simp [reaches, Role.isShown]
  rcases hshown with hshown | hfree
  · exact (isConstant_iff.mp h).2 part hpart hshown
  · cases atom with
    | var name type guard index mark => simp_all [isConstant, isFreeVar]
    | _ => cases hfree

section

variable {f : Role → Atom → Atom}

theorem variableName?_mapParts (atom : Atom) :
    (atom.mapParts f).variableName? = atom.variableName? := by
  cases atom <;> rfl

theorem reaches_mapParts (atom : Atom) (role : Role) :
    (atom.mapParts f).reaches role = atom.reaches role := by
  cases atom <;> cases role <;> rfl

end

/-!
## Conditions on all parts

A condition on all parts of an atom is one on the atom and on all parts of its parts, so it is one
on everything that is visited, however few parts are entered.
-/

mutual

/-- A condition holds for an atom and for all atoms in it, except for those that are bound in
applications. -/
def Everywhere (p : Atom → Prop) : Atom → Prop
  | typeUniverse mark => p (typeUniverse mark)
  | root name mark => p (root name mark)
  | literal value type mark => p (literal value type mark) ∧ Everywhere p type
  | var name type guard index mark =>
    p (var name type guard index mark) ∧ Everywhere p type ∧ OptionEverywhere p guard
  | lambda parameter body mark =>
    p (lambda parameter body mark) ∧ Everywhere p parameter ∧ Everywhere p body
  | sequence ⟨properties, elements⟩ mark =>
    p (sequence ⟨properties, elements⟩ mark) ∧ PropertiesEverywhere p properties ∧
      ListEverywhere p elements
  | propertySet properties mark =>
    p (propertySet properties mark) ∧ PropertiesEverywhere p properties
  | operator ⟨name, properties, parameters, resultType, native⟩ mark =>
    p (operator ⟨name, properties, parameters, resultType, native⟩ mark) ∧
      PropertiesEverywhere p properties ∧ ListEverywhere p parameters ∧
      OptionEverywhere p resultType
  | application head argument bound mark =>
    p (application head argument bound mark) ∧ Everywhere p head ∧ Everywhere p argument

def ListEverywhere (p : Atom → Prop) : List Atom → Prop
  | [] => True
  | atom :: rest => Everywhere p atom ∧ ListEverywhere p rest

def OptionEverywhere (p : Atom → Prop) : Option Atom → Prop
  | none => True
  | some atom => Everywhere p atom

def PropertiesEverywhere (p : Atom → Prop) : PropertySet Atom → Prop
  | ⟨a, c, i, b, d⟩ =>
    OptionEverywhere p a ∧ OptionEverywhere p c ∧ OptionEverywhere p i ∧ OptionEverywhere p b ∧
      OptionEverywhere p d

end

variable {p q : Atom → Prop}

theorem listEverywhere_iff {list : List Atom} :
    ListEverywhere p list ↔ ∀ atom ∈ list, atom.Everywhere p := by
  induction list with
  | nil =>
      constructor
      · intro _ atom hatom
        cases hatom
      · exact fun _ => trivial
  | cons atom rest ih => rw [ListEverywhere, ih, List.forall_mem_cons]

theorem optionEverywhere_iff {value : Option Atom} :
    OptionEverywhere p value ↔ ∀ atom, value = some atom → atom.Everywhere p := by
  cases value with
  | none =>
      constructor
      · intro _ atom h
        cases h
      · exact fun _ => trivial
  | some atom =>
      rw [OptionEverywhere]
      simp only [Option.some.injEq, forall_eq']

theorem propertiesEverywhere_iff {properties : Properties} :
    PropertiesEverywhere p properties ↔ ∀ law, OptionEverywhere p (properties.get law) := by
  rcases properties with ⟨a, c, i, b, d⟩
  constructor
  · intro h law
    cases law with
    | associative => exact h.1
    | commutative => exact h.2.1
    | idempotent => exact h.2.2.1
    | absorber => exact h.2.2.2.1
    | identity => exact h.2.2.2.2
  · intro h
    exact ⟨h .associative, h .commutative, h .idempotent, h .absorber, h .identity⟩

theorem propertiesEverywhere_set {properties : Properties} (h : PropertiesEverywhere p properties)
    {law : Law} {value : Option Atom} (hvalue : OptionEverywhere p value) :
    PropertiesEverywhere p (properties.set law value) := by
  rw [propertiesEverywhere_iff] at h ⊢
  intro other
  by_cases hother : other = law
  · rwa [hother, PropertySet.get_set_self]
  · rw [PropertySet.get_set_of_ne properties value hother]
    exact h other

theorem optionEverywhere_iff_toList {value : Option Atom} :
    OptionEverywhere p value ↔ ∀ atom ∈ value.toList, atom.Everywhere p := by
  simp only [optionEverywhere_iff, Option.mem_toList]

theorem propertiesEverywhere_iff_values {properties : Properties} :
    PropertiesEverywhere p properties ↔ ∀ value ∈ properties.values, value.Everywhere p := by
  simp only [propertiesEverywhere_iff, optionEverywhere_iff, PropertySet.forall_mem_values,
    Option.mem_def]

theorem everywhere_iff {atom : Atom} :
    atom.Everywhere p ↔ p atom ∧ ∀ part ∈ atom.parts, part.2.Everywhere p := by
  cases atom with
  | typeUniverse mark => exact (and_iff_left (List.forall_mem_nil _)).symm
  | root name mark => exact (and_iff_left (List.forall_mem_nil _)).symm
  | literal value type mark => rw [Everywhere, parts, List.forall_mem_singleton]
  | var name type guard index mark =>
      rw [Everywhere, parts, List.forall_mem_cons, List.forall_mem_map, optionEverywhere_iff_toList]
  | lambda parameter body mark =>
      rw [Everywhere, parts, List.forall_mem_cons, List.forall_mem_singleton]
  | sequence s mark =>
      rcases s with ⟨properties, elements⟩
      rw [Everywhere, parts, List.forall_mem_append, List.forall_mem_map, List.forall_mem_map,
        propertiesEverywhere_iff_values, listEverywhere_iff]
  | propertySet properties mark =>
      rw [Everywhere, parts, List.forall_mem_map, propertiesEverywhere_iff_values]
  | operator op mark =>
      rcases op with ⟨name, properties, parameters, resultType, native⟩
      rw [Everywhere, parts, List.forall_mem_append, List.forall_mem_append, List.forall_mem_map,
        List.forall_mem_map, List.forall_mem_map, propertiesEverywhere_iff_values,
        listEverywhere_iff, optionEverywhere_iff_toList]
  | application head argument bound mark =>
      rw [Everywhere, parts, List.forall_mem_cons, List.forall_mem_singleton]

theorem Everywhere.self {atom : Atom} (h : atom.Everywhere p) : p atom := (everywhere_iff.mp h).1

theorem everywhere_imp (himp : ∀ atom, p atom → q atom) (atom : Atom) :
    atom.Everywhere p → atom.Everywhere q := by
  induction atom using parts_induction with
  | step atom ih =>
      rw [everywhere_iff, everywhere_iff]
      exact And.imp (himp atom) fun h part hpart => ih part hpart (h part hpart)

theorem everywhere_and (atom : Atom) : atom.Everywhere p → atom.Everywhere q →
    atom.Everywhere fun part => p part ∧ q part := by
  induction atom using parts_induction with
  | step atom ih =>
      rw [everywhere_iff, everywhere_iff, everywhere_iff]
      exact fun hp hq =>
        ⟨⟨hp.1, hq.1⟩, fun part hpart => ih part hpart (hp.2 part hpart) (hq.2 part hpart)⟩

theorem Everywhere.of_mem_visited {σ : Type} {enter : σ → Atom → Role → Option σ} {place : σ}
    {atom : Atom} (h : atom.Everywhere p) {visit : σ × Atom}
    (hvisit : visit ∈ atom.visited enter place) : visit.2.Everywhere p := by
  induction atom using parts_induction generalizing place with
  | step atom ih =>
      rcases mem_visited.mp hvisit with rfl | ⟨part, hpart, inner, -, hvisit⟩
      · exact h
      · exact ih part hpart ((everywhere_iff.mp h).2 part hpart) hvisit

/-- What atoms have of their own under a condition is all that is gathered where the condition holds
everywhere. -/
theorem Everywhere.forall_mem_gather {β : Type} {counts : Atom → Role → Bool} {own : Atom → List β}
    {r : β → Prop} (hown : ∀ atom, p atom → ∀ x ∈ own atom, r x) {atom : Atom}
    (h : atom.Everywhere p) : ∀ x ∈ atom.gather counts own, r x := by
  intro x hx
  rcases List.mem_flatMap.mp hx with ⟨visit, hvisit, hx⟩
  exact hown visit.2 (h.of_mem_visited hvisit).self x hx

/-!
## Deciding conditions on all parts
-/

theorem everywhere_iff_gather {atom : Atom} : atom.Everywhere p ↔
    ∀ part ∈ atom.gather (fun _ _ => true) (fun atom => [atom]), p part := by
  induction atom using parts_induction with
  | step atom ih =>
      rw [everywhere_iff, gather_eq, List.forall_mem_append, List.forall_mem_singleton,
        List.forall_mem_flatMap, List.filter_eq_self.mpr fun _ _ => rfl]
      exact and_congr_right fun _ => forall₂_congr ih

section

variable (p) [DecidablePred p]

instance : DecidablePred (Everywhere p) := fun _ => decidable_of_iff' _ everywhere_iff_gather

instance : DecidablePred (OptionEverywhere p) := fun _ =>
  decidable_of_iff' _ optionEverywhere_iff_toList

instance : DecidablePred (PropertiesEverywhere p) := fun _ =>
  decidable_of_iff' _ propertiesEverywhere_iff_values

end

end Atom

end Equational
