import Equational.Proofs.Handover

/-!
# Padded parameters

An associative operator repeats its last parameter, under numbered names, until
there are as many parameters as arguments.  A variable that accepts everything
takes any argument, unless its name has been bound to another one before.  So
parameters without types and guards take any arguments as long as their names
are different.  The numbered names are different from one another, but a
declared parameter may have such a name too; then its argument and that of the
copy have to be equal.
-/

namespace Equational

namespace Atom

variable {evaluate : GuardEvaluator} {parameters arguments : List Atom} {binds : Bindings}

/-!
## Parameters that accept everything
-/

/-- If the name of the parameter is bound, it is bound to an equal of the argument. -/
def Admits (binds : Bindings) (parameter argument : Atom) : Prop :=
  ∀ name existing, parameter.variableName? = some name → binds.find? name = some existing →
    (existing == argument) = true

/-- A parameter and its argument allow for another parameter and its argument: the name is not the
same, or the parameter stands for itself, or the arguments are equal. -/
def Allows (former latter : Atom × Atom) : Prop :=
  former.1.variableName? = latter.1.variableName? → (former.1 == former.2) = false →
    (former.2 == latter.2) = true

/-- Each argument is admitted by the bindings, and allowed by the arguments before it. -/
structure Accepts (binds : Bindings) (pairs : List (Atom × Atom)) : Prop where
  admits : ∀ pair ∈ pairs, Admits binds pair.1 pair.2
  allows : pairs.Pairwise Allows

section

variable {parameter argument existing : Atom} {name : String} {pairs : List (Atom × Atom)}

theorem admits_of_find?_eq_none (hname : parameter.variableName? = some name)
    (hfind : binds.find? name = none) : Admits binds parameter argument := by
  intro other existing hother hbound
  rw [hname, Option.some_inj] at hother
  rw [← hother, hfind] at hbound
  cases hbound

theorem admits_insert_iff (hfind : binds.find? name = none) (bound : Atom) :
    Admits (binds.insert name bound) parameter argument ↔
      Admits binds parameter argument ∧
        (parameter.variableName? = some name → (bound == argument) = true) := by
  constructor
  · intro h
    refine ⟨fun other existing hother hbound => ?_, fun hname => ?_⟩
    · have hne : other ≠ name := by
        rintro rfl
        rw [hfind] at hbound
        cases hbound
      exact h other existing hother (by rwa [NameMap.find?_insert_of_ne binds bound hne])
    · exact h name bound hname (NameMap.find?_insert_self binds name bound)
  · rintro ⟨hadmits, hequal⟩ other existing hother hbound
    by_cases hname : other = name
    · rw [hname, NameMap.find?_insert_self, Option.some_inj] at hbound
      exact hbound ▸ hequal (hname ▸ hother)
    · rw [NameMap.find?_insert_of_ne binds bound hname] at hbound
      exact hadmits other existing hother hbound

theorem accepts_cons_iff : Accepts binds ((parameter, argument) :: pairs) ↔
    Admits binds parameter argument ∧ (∀ latter ∈ pairs, Allows (parameter, argument) latter) ∧
      Accepts binds pairs := by
  constructor
  · rintro ⟨hadmits, hallows⟩
    rw [List.forall_mem_cons] at hadmits
    rw [List.pairwise_cons] at hallows
    exact ⟨hadmits.1, hallows.1, hadmits.2, hallows.2⟩
  · rintro ⟨hadmits, hallows, haccepts⟩
    exact ⟨List.forall_mem_cons.mpr ⟨hadmits, haccepts.admits⟩,
      List.pairwise_cons.mpr ⟨hallows, haccepts.allows⟩⟩

theorem accepts_cons_of_bound (hname : parameter.variableName? = some name)
    (hfind : binds.find? name = some existing) :
    Accepts binds ((parameter, argument) :: pairs) ↔
      (existing == argument) = true ∧ Accepts binds pairs := by
  rw [accepts_cons_iff]
  constructor
  · exact fun h => ⟨h.1 name existing hname hfind, h.2.2⟩
  · rintro ⟨hequal, haccepts⟩
    refine ⟨?_, fun latter hlatter hsame _ => ?_, haccepts⟩
    · intro other bound hother hbound
      rw [hname, Option.some_inj] at hother
      rw [← hother, hfind, Option.some_inj] at hbound
      exact hbound ▸ hequal
    · -- a later argument equals what the name is bound to, as this one does
      have hlater := haccepts.admits latter hlatter name existing (hsame ▸ hname) hfind
      exact beq_trans (beq_symm hequal) hlater

theorem accepts_cons_of_self (hname : parameter.variableName? = some name)
    (hfind : binds.find? name = none) (hself : (parameter == argument) = true) :
    Accepts binds ((parameter, argument) :: pairs) ↔ Accepts binds pairs := by
  rw [accepts_cons_iff]
  refine ⟨fun h => h.2.2, fun h => ⟨admits_of_find?_eq_none hname hfind, ?_, h⟩⟩
  intro latter _ _ hother
  rw [hself] at hother
  cases hother

theorem accepts_cons_of_unbound (hname : parameter.variableName? = some name)
    (hfind : binds.find? name = none) (hother : (parameter == argument) = false) :
    Accepts binds ((parameter, argument) :: pairs) ↔
      Accepts (binds.insert name argument) pairs := by
  have hallows : ∀ latter : Atom × Atom, Allows (parameter, argument) latter ↔
      (latter.1.variableName? = some name → (argument == latter.2) = true) := by
    intro latter
    rw [Allows, hname, eq_comm]
    exact forall_congr' fun _ => ⟨fun h => h hother, fun h _ => h⟩
  simp only [accepts_cons_iff, hallows]
  constructor
  · rintro ⟨-, hequal, haccepts⟩
    exact ⟨fun pair hpair => (admits_insert_iff hfind argument).mpr
      ⟨haccepts.admits pair hpair, hequal pair hpair⟩, haccepts.allows⟩
  · intro h
    have hadmits := fun pair hpair => (admits_insert_iff hfind argument).mp (h.admits pair hpair)
    exact ⟨admits_of_find?_eq_none hname hfind, fun pair hpair => (hadmits pair hpair).2,
      fun pair hpair => (hadmits pair hpair).1, h.allows⟩

end

theorem exists_mem_matchAll_iff (hfree : ∀ atom ∈ parameters, ∃ name, atom.IsFree name)
    (hlength : parameters.length = arguments.length) :
    (∃ found, found ∈
        (Element.matchAll (listElements evaluate parameters) arguments binds).alternatives) ↔
      Accepts binds (parameters.zip arguments) := by
  induction parameters generalizing arguments binds with
  | nil =>
      rw [List.length_eq_zero_iff.mp hlength.symm]
      exact iff_of_true ⟨binds, List.mem_singleton.mpr rfl⟩ ⟨List.forall_mem_nil _, .nil⟩
  | cons parameter rest ih =>
      cases arguments with
      | nil => cases hlength
      | cons argument arguments =>
          rcases hfree parameter List.mem_cons_self with ⟨name, hname⟩
          have hrest : ∀ binds, (∃ found, found ∈ (Element.matchAll (listElements evaluate rest)
              arguments binds).alternatives) ↔ Accepts binds (rest.zip arguments) := fun binds =>
            ih (fun atom hatom => hfree atom (List.mem_cons_of_mem _ hatom)) (Nat.succ.inj hlength)
          rw [listElements_cons, Element.alternatives_matchAll_cons, List.zip_cons_cons]
          change (∃ found, found ∈
            (search evaluate parameter argument binds).alternatives.flatMap _) ↔ _
          cases hfind : binds.find? name with
          | some existing =>
              rw [alternatives_search_bound hname hfind,
                accepts_cons_of_bound hname.variableName? hfind]
              split
              · rename_i hequal
                rw [List.flatMap_singleton, hrest, and_iff_right hequal]
              · rename_i hdiffers
                exact iff_of_false (by simp) fun h => hdiffers h.1
          | none =>
              rw [alternatives_search_unbound hname hfind]
              split
              · rename_i hself
                rw [List.flatMap_singleton, hrest,
                  accepts_cons_of_self hname.variableName? hfind hself]
              · rename_i hother
                rw [List.flatMap_singleton, hrest,
                  accepts_cons_of_unbound hname.variableName? hfind (Bool.not_eq_true _ ▸ hother)]

theorem pairwise_allows_of_distinct (hnamed : ∀ atom ∈ parameters, ∃ name, atom.IsFree name)
    (hdistinct : (parameters.filterMap variableName?).Nodup)
    (hlength : parameters.length = arguments.length) :
    (parameters.zip arguments).Pairwise Allows := by
  have hnames : parameters.Pairwise fun former latter =>
      former.variableName? ≠ latter.variableName? := by
    refine (List.pairwise_filterMap.mp hdistinct).imp_of_mem fun hformer _ hne hsame => ?_
    rcases hnamed _ hformer with ⟨name, hname⟩
    exact hne name hname.variableName? name (hsame ▸ hname.variableName?) rfl
  rw [← List.map_fst_zip (Nat.le_of_eq hlength), List.pairwise_map] at hnames
  exact hnames.imp fun hne hsame => absurd hsame hne

end Atom

open Atom

namespace Operator

variable {op : Operator Atom} {evaluate : GuardEvaluator} {arguments : List Atom}

/-!
## Copies of the last parameter

Declared parameters and copies allow for one another unless two of them clash.  So only lists in
which two of them do are refused.
-/

/-- A declared parameter has the name of a copy of the last one and is bound to another argument
than the copy would be. -/
inductive Clashes (op : Operator Atom) (arguments : List Atom) : Prop
  | intro {last declared argument other : Atom} {name : String} {i copy : Nat}
      (hlast : op.parameters.getLast? = some last) (hname : last.variableName? = some name)
      (hdeclared : op.parameters[i]? = some declared)
      (hnumbered : declared.variableName? = some (name ++ "#" ++ Number.natText (copy + 1)))
      (hargument : arguments[i]? = some argument) (hself : (declared == argument) = false)
      (hother : arguments[op.parameters.length + copy]? = some other)
      (hdiffers : (argument == other) = false)

section

variable {name : String} {type : Atom} {mark : Mark} {count : Nat}

theorem getElem?_plainCopies {copy : Nat} (h : copy < count) :
    (plainCopies name type 1 count)[copy]? =
      some (.var (name ++ "#" ++ Number.natText (copy + 1)) type none 0 .new) := by
  rw [plainCopies, List.getElem?_map, List.getElem?_range' h, Nat.one_mul, Nat.add_comm]
  rfl

theorem allows_copies_iff (hlength : arguments.length = op.parameters.length + count)
    (hlast : op.parameters.getLast? = some (.var name type none 0 mark)) :
    (∀ former ∈ op.parameters.zip (arguments.take op.parameters.length),
      ∀ latter ∈ (plainCopies name type 1 count).zip (arguments.drop op.parameters.length),
        Allows former latter) ↔ ¬op.Clashes arguments := by
  constructor
  · intro hallows
    rintro @⟨last, declared, argument, other, ownName, i, copy, hlastIs, hname,
      hdeclared, hnumbered,
      hargument, hself, hother, hdiffers⟩
    rw [hlast, Option.some_inj] at hlastIs
    rw [← hlastIs, variableName?, Option.some_inj] at hname
    have hi : i < op.parameters.length := (List.getElem?_eq_some_iff.mp hdeclared).1
    have hcopy : op.parameters.length + copy < arguments.length :=
      (List.getElem?_eq_some_iff.mp hother).1
    have hformer : (declared, argument) ∈ op.parameters.zip (arguments.take op.parameters.length) :=
      List.mem_iff_getElem?.mpr ⟨i, List.getElem?_zip_eq_some.mpr
        ⟨hdeclared, (List.getElem?_take_of_lt hi).trans hargument⟩⟩
    have hlatter : (.var (name ++ "#" ++ Number.natText (copy + 1)) type none 0 .new, other) ∈
        (plainCopies name type 1 count).zip (arguments.drop op.parameters.length) :=
      List.mem_iff_getElem?.mpr ⟨copy, List.getElem?_zip_eq_some.mpr
        ⟨getElem?_plainCopies (by omega), List.getElem?_drop.trans hother⟩⟩
    have hequal : (argument == other) = true :=
      hallows _ hformer _ hlatter (by rw [hnumbered, hname]; rfl) hself
    rw [hdiffers] at hequal
    cases hequal
  · intro hclash former hformer latter hlatter hsame hself
    rcases List.mem_iff_getElem?.mp hformer with ⟨i, hi⟩
    rcases List.mem_iff_getElem?.mp hlatter with ⟨copy, hcopy⟩
    rw [List.getElem?_zip_eq_some] at hi hcopy
    have hlt : copy < count := by
      have hlt := (List.getElem?_eq_some_iff.mp hcopy.1).1
      rwa [length_plainCopies] at hlt
    rw [getElem?_plainCopies hlt, Option.some_inj] at hcopy
    have hargument : arguments[i]? = some former.2 := by
      rw [List.getElem?_take_of_lt (List.getElem?_eq_some_iff.mp hi.1).1] at hi
      exact hi.2
    by_contra hdiffers
    refine hclash (.intro hlast rfl hi.1 ?_ hargument hself (List.getElem?_drop ▸ hcopy.2)
      (Bool.not_eq_true _ ▸ hdiffers))
    rw [hsame, ← hcopy.1]
    rfl

/-- The declared parameters and the copies of the last one allow for one another unless two of them
clash. -/
theorem pairwise_allows_padded_iff (hfree : ∀ atom ∈ op.parameters, ∃ name, atom.IsFree name)
    (hdistinct : (op.parameters.filterMap variableName?).Nodup)
    (hlength : arguments.length = op.parameters.length + count)
    (hlast : op.parameters.getLast? = some (.var name type none 0 mark))
    (hany : type.isAny = true) :
    ((op.parameters ++ plainCopies name type 1 count).zip arguments).Pairwise Allows ↔
      ¬op.Clashes arguments := by
  have hfirst : op.parameters.length = (arguments.take op.parameters.length).length :=
    (List.length_take_of_le (by omega)).symm
  have hsecond : (plainCopies name type 1 count).length =
      (arguments.drop op.parameters.length).length := by
    rw [length_plainCopies, List.length_drop]
    omega
  have hnumbers : ((plainCopies name type 1 count).filterMap variableName?).Nodup := by
    rw [filterMap_plainCopies]
    exact nodup_copyNames name 1 count
  have hsplit : (op.parameters ++ plainCopies name type 1 count).zip arguments =
      op.parameters.zip (arguments.take op.parameters.length) ++
        (plainCopies name type 1 count).zip (arguments.drop op.parameters.length) := by
    rw [← List.zip_append hfirst, List.take_append_drop]
  rw [hsplit, List.pairwise_append,
    and_iff_right (pairwise_allows_of_distinct hfree hdistinct hfirst),
    and_iff_right
      (pairwise_allows_of_distinct (isFree_plainCopies name hany 1 count) hnumbers hsecond),
    allows_copies_iff hlength hlast]

theorem exists_mem_matchAll_padded_iff (hfree : ∀ atom ∈ op.parameters, ∃ name, atom.IsFree name)
    (hdistinct : (op.parameters.filterMap variableName?).Nodup)
    (hlength : arguments.length = op.parameters.length + count)
    (hlast : op.parameters.getLast? = some (.var name type none 0 mark))
    (hany : type.isAny = true) :
    (∃ found, found ∈ (Element.matchAll (listElements evaluate
        (op.parameters ++ plainCopies name type 1 count)) arguments .empty).alternatives) ↔
      ¬op.Clashes arguments := by
  have hpadded : ∀ atom ∈ op.parameters ++ plainCopies name type 1 count,
      ∃ name, atom.IsFree name :=
    List.forall_mem_append.mpr ⟨hfree, isFree_plainCopies name hany 1 count⟩
  have hadmits : ∀ parameter argument, Admits .empty parameter argument := by
    intro parameter argument other existing _ hbound
    cases hbound
  rw [exists_mem_matchAll_iff hpadded (by rw [List.length_append, length_plainCopies, hlength]),
    ← pairwise_allows_padded_iff hfree hdistinct hlength hlast hany]
  exact ⟨fun h => h.allows, fun h => ⟨fun pair _ => hadmits pair.1 pair.2, h⟩⟩

end

/-!
## Applications with padded parameters
-/

theorem bindParameters_error {parameters : List Atom}
    (h : ¬∃ found, found ∈ (Element.matchAll (listElements evaluate parameters) arguments
      .empty).alternatives) :
    ∃ failure, (op.bindParameters evaluate parameters arguments).result =
      .error (.parameters op.name failure) := by
  cases hfirst : (Element.matchAll (listElements evaluate parameters) arguments
      .empty).value.first.value with
  | ok bound =>
      have hbound : (op.bindParameters evaluate parameters arguments).result = .ok bound := by
        rw [bindParameters_result, hfirst]
        rfl
      exact absurd ⟨bound, mem_of_bindParameters hbound⟩ h
  | error failure => exact ⟨failure, by rw [bindParameters_result, hfirst]; rfl⟩

section

variable {list : List Atom}

/-- A list that is left with enough arguments, two at least, and without the absorber, is bound to
the padded parameters.  They match it unless two of them clash. -/
theorem exists_pairs_padded (evaluate : GuardEvaluator) (mark : Mark)
    (hassociative : op.properties.isAssociative = true) (hsome : op.parameters ≠ [])
    (hfree : ∀ atom ∈ op.parameters, ∃ name, atom.IsFree name)
    (hdistinct : (op.parameters.filterMap variableName?).Nodup)
    (hmany : max op.parameters.length 2 ≤ (op.simplify list).length)
    (habsorbs : ∀ atom ∈ op.simplify list, op.absorbs atom = false) :
    ∃ parameters,
      op.Pairs evaluate (.sequence (.plain list) mark) parameters (op.simplify list) ∧
      ((∃ found, found ∈ (Element.matchAll (listElements evaluate parameters) (op.simplify list)
        .empty).alternatives) ↔ ¬op.Clashes (op.simplify list)) := by
  have hlast := List.getLast?_eq_some_getLast hsome
  rcases hfree _ (List.getLast_mem hsome) with ⟨name, type, lastMark, hvar, hany⟩
  rw [hvar] at hlast
  have hlength : (op.simplify list).length =
      op.parameters.length + ((op.simplify list).length - op.parameters.length) := by omega
  have hlist : (op.arguments (.sequence (.plain list) mark)).result = .ok list := by
    rw [Plain.arguments_sequence (mismatch?_none op), Sequence.elements_plain]
    rfl
  exact ⟨_, .padded hassociative hlist rfl habsorbs (by omega) (fun hnil => by simp [hnil] at hmany)
    (paddedParameters_result hlast _), exists_mem_matchAll_padded_iff hfree hdistinct hlength hlast
      hany⟩

end

/-- An associative operator with different parameters, none of them with a type or a guard, takes
any list that is left with as many arguments, two at least, and without its absorber, unless a
declared parameter clashes with a copy of the last one.  Then, and only then, it rejects the list.
-/
theorem applyWith_padded (natives : Natives) (evaluate : GuardEvaluator) {list : List Atom}
    (mark : Mark) (hassociative : op.properties.isAssociative = true) (hnative : op.native = none)
    (hsome : op.parameters ≠ []) (hfree : ∀ atom ∈ op.parameters, ∃ name, atom.IsFree name)
    (hdistinct : (op.parameters.filterMap variableName?).Nodup)
    (hmany : max op.parameters.length 2 ≤ (op.simplify list).length)
    (habsorbs : ∀ atom ∈ op.simplify list, op.absorbs atom = false) :
    (¬op.Clashes (op.simplify list) → ∃ bound,
        (op.applyWith natives evaluate (.sequence (.plain list) mark)).result =
          .ok (op.assembled (op.simplify list) bound)) ∧
      (op.Clashes (op.simplify list) → ∃ failure,
        (op.applyWith natives evaluate (.sequence (.plain list) mark)).result =
          .error (.parameters op.name failure)) := by
  rcases exists_pairs_padded evaluate mark hassociative hsome hfree hdistinct hmany habsorbs with
    ⟨parameters, hpairs, hmatch⟩
  rw [hpairs.result_applyWith]
  constructor
  · intro hclash
    rcases bindParameters_ok (hmatch.mpr hclash) with ⟨bound, hbound⟩
    exact ⟨bound, (dispatch_eq_ok_iff hnative).mpr ⟨bound, hbound, rfl⟩⟩
  · intro hclash
    rcases @bindParameters_error op _ _ _ (fun h => hmatch.mp h hclash) with ⟨failure, hfailure⟩
    exact ⟨failure, Evaluation.result_bind_of_error hfailure _⟩

/-- An associative operator whose first parameter has the name of a copy of the second. -/
def numbered : Operator Atom :=
  ⟨"f", ⟨some (.boolean true), none, none, none, none⟩,
    [.free "y#1" .any, .free "y" .any], none, none⟩

theorem isFree_numbered : ∀ atom ∈ numbered.parameters, ∃ name, atom.IsFree name :=
  List.forall_mem_cons.mpr ⟨⟨"y#1", .any, .new, rfl, rfl⟩,
    List.forall_mem_singleton.mpr ⟨"y", .any, .new, rfl, rfl⟩⟩

theorem simplify_numbered (first second third : Int64) :
    numbered.simplify [.integer first, .integer second, .integer third] =
      [.integer first, .integer second, .integer third] := rfl

/-- The first argument and the third have to be equal, but not the second. -/
theorem applyWith_padded_numbered :
    (∃ bound, (numbered.applyWith Engine.idle.natives Engine.idle.evaluate
        (.sequence (.plain [.integer 1, .integer 2, .integer 1]) .new)).result =
      .ok (numbered.assembled [.integer 1, .integer 2, .integer 1] bound)) ∧
    ∃ failure, (numbered.applyWith Engine.idle.natives Engine.idle.evaluate
        (.sequence (.plain [.integer 1, .integer 2, .integer 3]) .new)).result =
      .error (.parameters "f" failure) := by
  have happly := fun third : Int64 =>
    @applyWith_padded numbered Engine.idle.natives Engine.idle.evaluate
      [.integer 1, .integer 2, .integer third] .new rfl rfl (by simp [numbered]) isFree_numbered
      (by decide) (Nat.le_succ 2) (fun _ _ => rfl)
  simp only [simplify_numbered] at happly
  refine ⟨(happly 1).1 ?_, (happly 3).2 ?_⟩
  · rintro @⟨last, declared, argument, other, name, i, copy, hlast, hname, hdeclared, hnumbered,
      hargument, hself, hother, hdiffers⟩
    -- there is one copy, and only the first parameter has its name
    have hcopy : copy = 0 := by
      have hlt := (List.getElem?_eq_some_iff.mp hother).1
      simp only [numbered, List.length_cons, List.length_nil] at hlt
      omega
    subst hcopy
    cases hlast
    cases hname
    cases i with
    | zero =>
        cases hargument
        cases hother
        exact absurd hdiffers (by decide +kernel)
    | succ i =>
        have hi : i = 0 := by
          have hlt := (List.getElem?_eq_some_iff.mp hdeclared).1
          simp only [numbered, List.length_cons, List.length_nil] at hlt
          omega
        subst hi
        cases hdeclared
        exact absurd hnumbered (by decide)
  · exact @Clashes.intro numbered _ _ _ _ _ "y" 0 0 rfl rfl rfl rfl rfl (by decide +kernel) rfl
      (by decide +kernel)

/-- A list of three constants is refused, though the two parameters have different names. -/
theorem applyWith_padded_refused :
    numbered.properties.isAssociative = true ∧ numbered.native = none ∧
      (∀ atom ∈ numbered.parameters, ∃ name, atom.IsFree name) ∧
      (numbered.parameters.filterMap variableName?).Nodup ∧
      numbered.simplify [.integer 1, .integer 2, .integer 3] =
        [.integer 1, .integer 2, .integer 3] ∧
      (numbered.applyWith Engine.idle.natives Engine.idle.evaluate
        (.sequence (.plain [.integer 1, .integer 2, .integer 3]) .new)).result.isOk = false := by
  exact ⟨rfl, rfl, isFree_numbered, by decide, rfl, by decide +kernel⟩

end Operator

end Equational
