import Equational.Proofs.Building
import Equational.Proofs.RewritingTerms

/-!
# The indices of lambdas

An atom shows one index, that of its free places: a lambda shows the index of its
parameter and hides what is in its body, and types, guards and the declarations of
operators do not count at all.  In an ordered atom nothing is hidden: no lambda in it
has an index above the one that the atom shows.

Evaluation makes up no lambdas, but it moves them.  What is put in the place of a
variable may come to lie under a lambda of a lower index, so that order is kept only if
there is room for it: no lambda above a replaced variable may have an index below those
of the lambdas that are put there.
-/

namespace Equational

open Atom Evaluation

namespace Atom

/-!
## The lambdas in an atom

Two conditions on the lambdas of an atom: where they may stand, and where others may be put among
them.
-/

def LambdaIndex (p : UInt64 → Prop) : Atom → Prop
  | lambda parameter _ _ => p parameter.bindingIndex
  | _ => True

instance (p : UInt64 → Prop) [DecidablePred p] : DecidablePred (LambdaIndex p)
  | lambda parameter _ _ => inferInstanceAs (Decidable (p parameter.bindingIndex))
  | typeUniverse _ | root .. | literal .. | var .. | sequence .. | propertySet .. | operator ..
  | application .. => instDecidableTrue

abbrev LambdasIn (p : UInt64 → Prop) (atom : Atom) : Prop := atom.Everywhere (LambdaIndex p)

abbrev LambdaFree (atom : Atom) : Prop := atom.LambdasIn fun _ => False

/-- Nothing that the index of an atom does not count has a lambda in it, the index of a lambda is
not below those of the lambdas in its body, and no application has lambdas on both sides. -/
def Ordered : Atom → Prop
  | literal _ type _ => type.LambdaFree
  | var _ type guard _ _ =>
    type.LambdaFree ∧ OptionEverywhere (LambdaIndex fun _ => False) guard
  | lambda parameter body _ => body.LambdasIn (· ≤ parameter.bindingIndex)
  | operator op mark => (operator op mark).LambdaFree
  | application head argument _ _ => head.LambdaFree ∨ argument.LambdaFree
  | _ => True

instance : DecidablePred Ordered
  | literal _ type _ => inferInstanceAs (Decidable type.LambdaFree)
  | var _ type guard _ _ => inferInstanceAs (Decidable
    (type.LambdaFree ∧ OptionEverywhere (LambdaIndex fun _ => False) guard))
  | lambda parameter body _ =>
    inferInstanceAs (Decidable (body.LambdasIn (· ≤ parameter.bindingIndex)))
  | operator op mark => inferInstanceAs (Decidable (operator op mark).LambdaFree)
  | application head argument _ _ =>
    inferInstanceAs (Decidable (head.LambdaFree ∨ argument.LambdaFree))
  | typeUniverse _ | root .. | sequence .. | propertySet .. => instDecidableTrue

/-- Atoms whose lambdas have certain indices may be put in the place of variables: no lambda has an
index below one of these and, unless there are no such indices, only operators are applied, and
there is nothing to replace in the type and the guard of a pattern variable. -/
def RoomFor (p : UInt64 → Prop) : Atom → Prop
  | lambda parameter _ _ => ∀ index, p index → index ≤ parameter.bindingIndex
  | var _ type guard index _ => index = 0 → (∀ index, ¬ p index) ∨
    (type.isConstant = true ∧ type.bindingIndex = 0) ∧
      optionConstant guard = true ∧ optionIndex guard = 0
  | application head _ _ _ => (∀ index, ¬ p index) ∨ head.operator?.isSome = true
  | _ => True

section

variable {p q : UInt64 → Prop}

theorem LambdaIndex.imp (himp : ∀ index, p index → q index) {atom : Atom}
    (h : LambdaIndex p atom) : LambdaIndex q atom := by
  cases atom with
  | lambda parameter body mark => exact himp _ h
  | _ => trivial

theorem LambdasIn.imp (himp : ∀ index, p index → q index) {atom : Atom} (h : atom.LambdasIn p) :
    atom.LambdasIn q :=
  everywhere_imp (fun _ => LambdaIndex.imp himp) atom h

theorem LambdaFree.lambdasIn {atom : Atom} (h : atom.LambdaFree) : atom.LambdasIn p :=
  h.imp fun _ => False.elim

theorem roomFor_nothing (hp : ∀ index, ¬ p index) (atom : Atom) : RoomFor p atom := by
  cases atom with
  | lambda parameter body mark => exact fun index hindex => absurd hindex (hp index)
  | var name type guard index mark => exact fun _ => .inl hp
  | application head argument bound mark => exact .inl hp
  | _ => trivial

theorem lambdaIndex_bare {f : Option String → Option String} (atom : Atom) :
    LambdaIndex p (atom.bare f) ↔ LambdaIndex p atom := by
  cases atom with
  | lambda parameter body mark => rw [bare_lambda, LambdaIndex, LambdaIndex, bindingIndex_bare]
  | sequence s mark => rw [bare_sequence]; exact Iff.rfl
  | operator op mark => rw [bare_operator]; exact Iff.rfl
  | _ => exact Iff.rfl

theorem lambdaFree_bare {f : Option String → Option String} (atom : Atom) :
    (atom.bare f).LambdaFree ↔ atom.LambdaFree :=
  everywhere_bare lambdaIndex_bare atom

theorem ordered_bare {f : Option String → Option String} (atom : Atom) :
    Ordered (atom.bare f) ↔ Ordered atom := by
  cases atom with
  | literal _ type => exact lambdaFree_bare type
  | var _ type guard =>
      exact and_congr (lambdaFree_bare type) (optionEverywhere_bare lambdaIndex_bare guard)
  | lambda _ body =>
      rw [bare_lambda, Ordered, Ordered, bindingIndex_bare]
      exact everywhere_bare lambdaIndex_bare body
  | operator op mark =>
      have h := lambdaFree_bare (f := f) (operator op mark)
      rw [bare_operator] at h ⊢
      exact h
  | application head argument => exact or_congr (lambdaFree_bare head) (lambdaFree_bare argument)
  | sequence s mark => rw [bare_sequence]; exact Iff.rfl
  | _ => exact Iff.rfl

end

theorem bindingIndex_marked (place : Place) (atom : Atom) :
    (atom.marked place).bindingIndex = atom.bindingIndex := by
  rw [← bindingIndex_bare (f := id), like_marked id place atom, bindingIndex_bare]

/-!
## What an ordered atom shows
-/

theorem both_le_max (a b : UInt64) : a ≤ max a b ∧ b ≤ max a b := by
  rw [show max a b = if a ≤ b then b else a from rfl]
  split
  · rename_i hle
    exact ⟨hle, UInt64.le_refl b⟩
  · rename_i hle
    exact ⟨UInt64.le_refl a, UInt64.le_of_lt (UInt64.not_le.mp hle)⟩

theorem lt_add_one_iff {a b : UInt64} (h : b + 1 ≠ 0) : a < b + 1 ↔ a ≤ b := by
  grind

theorem bindingIndex_le_listIndex {list : List Atom} :
    ∀ atom ∈ list, atom.bindingIndex ≤ listIndex list := by
  induction list with
  | nil => exact List.forall_mem_nil _
  | cons atom rest ih =>
      have hmax := both_le_max atom.bindingIndex (listIndex rest)
      exact List.forall_mem_cons.mpr ⟨hmax.1, fun other hother =>
        UInt64.le_trans (ih other hother) hmax.2⟩

theorem bindingIndex_le_propertiesIndex {properties : Properties} :
    ∀ value ∈ properties.values, value.bindingIndex ≤ propertiesIndex properties := by
  rcases properties with ⟨a, c, i, b, d⟩
  have hoption : ∀ {law : Option Atom} {index : UInt64}, optionIndex law ≤ index →
      ∀ value ∈ law, value.bindingIndex ≤ index := by
    rintro _ index hle value rfl
    exact hle
  have hd := both_le_max (optionIndex b) (optionIndex d)
  have hb := both_le_max (optionIndex i) (max (optionIndex b) (optionIndex d))
  have hi := both_le_max (optionIndex c) (max (optionIndex i) (max (optionIndex b) (optionIndex d)))
  have hc := both_le_max (optionIndex a)
    (max (optionIndex c) (max (optionIndex i) (max (optionIndex b) (optionIndex d))))
  have hrest := UInt64.le_trans hi.2 hc.2
  have hlast := UInt64.le_trans hb.2 hrest
  simp only [PropertySet.values, List.forall_mem_append, Option.mem_toList]
  exact ⟨hoption hc.1, hoption (UInt64.le_trans hi.1 hc.2), hoption (UInt64.le_trans hb.1 hrest),
    hoption (UInt64.le_trans hd.1 hlast), hoption (UInt64.le_trans hd.2 hlast)⟩

/-- A part of an ordered atom has no lambdas above the index that the atom shows, or its own index
counts. -/
theorem Ordered.parts {atom : Atom} (h : Ordered atom) : ∀ part ∈ atom.parts,
    part.2.LambdasIn (· ≤ atom.bindingIndex) ∨ part.2.bindingIndex ≤ atom.bindingIndex := by
  cases atom with
  | typeUniverse mark | root name mark => exact List.forall_mem_nil _
  | literal value type mark => exact List.forall_mem_singleton.mpr (.inl h.lambdasIn)
  | var name type guard index mark =>
      have hguard := optionEverywhere_iff_toList.mp h.2
      exact List.forall_mem_cons.mpr ⟨.inl h.1.lambdasIn, List.forall_mem_map.mpr
        fun atom hatom => .inl (LambdaFree.lambdasIn (hguard atom hatom))⟩
  | lambda parameter body mark =>
      exact List.forall_mem_cons.mpr
        ⟨.inr (UInt64.le_refl _), List.forall_mem_singleton.mpr (.inl h)⟩
  | sequence s mark =>
      rcases s with ⟨properties, elements⟩
      have hmax := both_le_max (listIndex elements) (propertiesIndex properties)
      refine List.forall_mem_append.mpr ⟨List.forall_mem_map.mpr fun value hvalue => .inr ?_,
        List.forall_mem_map.mpr fun atom hatom => .inr ?_⟩
      · exact UInt64.le_trans (bindingIndex_le_propertiesIndex value hvalue) hmax.2
      · exact UInt64.le_trans (bindingIndex_le_listIndex atom hatom) hmax.1
  | propertySet properties mark =>
      exact List.forall_mem_map.mpr fun value hvalue =>
        .inr (bindingIndex_le_propertiesIndex value hvalue)
  | operator op mark =>
      exact fun part hpart => .inl (LambdaFree.lambdasIn ((everywhere_iff.mp h).2 part hpart))
  | application head argument bound mark =>
      have hmax := both_le_max head.bindingIndex argument.bindingIndex
      exact List.forall_mem_cons.mpr ⟨.inr hmax.1, List.forall_mem_singleton.mpr (.inr hmax.2)⟩

theorem lambdasIn_bindingIndex (atom : Atom) (h : atom.Everywhere Ordered) :
    atom.LambdasIn (· ≤ atom.bindingIndex) := by
  induction atom using parts_induction with
  | step atom ih =>
      rw [everywhere_iff] at h
      refine everywhere_iff.mpr ⟨?_, fun part hpart => ?_⟩
      · cases atom with
        | lambda parameter body mark => exact UInt64.le_refl _
        | _ => trivial
      · rcases h.1.parts part hpart with hbelow | hle
        · exact hbelow
        · exact (ih part hpart (h.2 part hpart)).imp fun _ hindex => UInt64.le_trans hindex hle

end Atom

/-- Native evaluations make up no lambdas, and do not put them into disorder. -/
structure Natives.KeepOrder (natives : Natives) : Prop where
  indices : ∀ p : UInt64 → Prop, natives.Keep (LambdaIndex p)
  ordered : natives.Keep Ordered

namespace Atom

/-!
## The indices of lambdas under evaluation

Application makes up no lambdas: those in its result come from the head and from the argument.
-/

section

variable {p : UInt64 → Prop}

theorem assembled_lambdaIndex : Assembled (LambdaIndex p) where
  inherited := inherited_everywhere (fun _ => trivial) (fun _ _ => trivial) ⟨trivial, trivial⟩
    (fun _ => trivial) (fun _ => trivial) fun _ _ => trivial
  like := by
    intro a b h ha
    rw [← everywhere_bare (f := id) lambdaIndex_bare] at ha ⊢
    rwa [← h]
  sequence _ := trivial
  application _ := trivial

def KeepsIndices (apply : Place → Atom → Atom → Evaluation Atom) : Prop :=
  ∀ (p : UInt64 → Prop) place head argument, head.LambdasIn p → argument.LambdasIn p →
    (apply place head argument).Yields (LambdasIn p)

theorem KeepsIndices.kept {apply : Place → Atom → Atom → Evaluation Atom}
    (happly : KeepsIndices apply) : Kept apply (LambdaIndex p) where
  new := by
    intro atom h
    cases atom with
    | _ => exact h
  var _ := trivial
  lambda h := h
  properties _ := trivial
  ofList _ := trivial
  checked _ := trivial
  head _ _ := fun _ _ _ => trivial
  apply _ hhead hargument := happly p _ _ _ hhead hargument

theorem keepsIndices_applyWithin {natives : Natives} (hnatives : natives.KeepOrder)
    (nesting : Nat) : KeepsIndices (applyWithin natives nesting) := by
  induction nesting with
  | zero => exact fun _ _ _ _ _ _ => yields_error _
  | succ nesting ih =>
      intro p place head argument hhead hargument
      cases head with
      | operator op mark =>
          exact assembled_lambdaIndex.yields_applyWith (hnatives.indices p) hhead hargument
      | lambda parameter body mark =>
          exact yields_applyLambda assembled_lambdaIndex.inherited assembled_lambdaIndex.like
            (ih.kept.keeps (2 :: place)) hhead.2.2 hargument
      | _ => exact yields_value ⟨trivial, hhead, hargument⟩

end

/-!
## The order of lambdas under evaluation

Lambdas get to new places only with what is put in the place of variables, so the order of an atom
is kept if there is room for them there.
-/

theorem ordered_literal (value : Literal) : (ofLiteral value).Everywhere Ordered :=
  ⟨(trivial : LambdaFree (root _ _)), trivial⟩

theorem assembled_ordered : Assembled Ordered where
  inherited := inherited_everywhere (fun _ => trivial) (fun _ _ => trivial)
    (ordered_literal (.boolean false)) (fun _ => trivial) (fun _ => trivial)
    fun hsub h => h.imp_right fun hlist => assembled_lambdaIndex.inherited.run hlist hsub
  like := by
    intro a b h ha
    rw [← everywhere_bare (f := id) ordered_bare] at ha ⊢
    rwa [← h]
  sequence _ := trivial
  application {op _ _} hop := by
    rcases op with ⟨name, properties, parameters, resultType, native⟩
    exact .inl hop.1

/-- Application keeps the order of lambdas, if they are in the head or in the argument only. -/
def KeepsOrder (apply : Place → Atom → Atom → Evaluation Atom) : Prop :=
  ∀ place head argument, head.Everywhere Ordered → argument.Everywhere Ordered →
    head.LambdaFree ∨ argument.LambdaFree →
    (apply place head argument).Yields (Everywhere Ordered)

section

variable {apply : Place → Atom → Atom → Evaluation Atom} {binds : Bindings} {p : UInt64 → Prop}

theorem lambdaFree_of_inert {atom : Atom} (hconstant : atom.isConstant = true)
    (hindex : atom.bindingIndex = 0) (h : atom.LambdaFree) {place : Place} :
    (rewriteWith apply binds place atom).Yields fun new => new.value.LambdaFree := by
  intro new hnew
  have hinert : atom.isInert binds = true := by
    rw [isInert, hconstant, hindex]
    exact Bool.or_true _
  rw [rewriteWith_of_isInert hinert] at hnew
  cases hnew
  exact h

theorem optionLambdaFree_of_inert {value : Option Atom} (hconstant : optionConstant value = true)
    (hindex : optionIndex value = 0) (h : OptionEverywhere (LambdaIndex fun _ => False) value)
    {place : Place} : (rewriteOption apply binds place value).Yields fun new =>
      OptionEverywhere (LambdaIndex fun _ => False) new.value := by
  cases value with
  | none =>
      rw [rewriteOption]
      exact yields_value trivial
  | some atom =>
      rw [rewriteOption]
      exact (lambdaFree_of_inert hconstant hindex h).bind fun newAtom hatom => yields_value hatom

variable (hindices : KeepsIndices apply)
include hindices

theorem lambdasIn_rewriteWith (hbinds : binds.All (LambdasIn p)) {atom : Atom}
    (h : atom.LambdasIn p) (place : Place) :
    (rewriteWith apply binds place atom).Yields fun new => new.value.LambdasIn p :=
  everywhere_rewriteWith hindices.kept hbinds atom h place

/-- What is put in the place of variables has no lambda that a lambda around it could hide. -/
theorem turns_ordered (horder : KeepsOrder apply) (hbinds : binds.All (LambdasIn p)) :
    Turns apply binds (fun atom => Ordered atom ∧ RoomFor p atom) Ordered where
  same h := h.1
  new := by
    intro atom h
    cases atom with
    | operator op mark =>
        rcases op with ⟨name, properties, parameters, resultType, native⟩
        exact h
    | _ => exact h
  properties _ := ⟨trivial, trivial⟩
  var := by
    intro name type guard index mark place hindex h _ _ newType hnewType newGuard hnewGuard
    rcases h.2 hindex with hp | ⟨⟨htype, htypeIndex⟩, hguard, hguardIndex⟩
    · have hfree : binds.All LambdaFree := fun name atom hatom => (hbinds name atom hatom).imp hp
      exact ⟨lambdasIn_rewriteWith hindices hfree h.1.1 _ newType hnewType,
        turned_rewriteOption hindices.kept.turns hfree guard h.1.2 _ newGuard hnewGuard⟩
    · exact ⟨lambdaFree_of_inert htype htypeIndex h.1.1 newType hnewType,
        optionLambdaFree_of_inert hguard hguardIndex h.1.2 newGuard hnewGuard⟩
  lambda := by
    intro parameter body mark place h _ newBody hnewBody
    exact lambdasIn_rewriteWith hindices
      (fun name atom hatom => (hbinds name atom hatom).imp h.2) h.1 _ newBody hnewBody
  ofList _ := trivial
  checked _ := trivial
  apply := by
    intro head argument bound mark place h hhead _ newHead hnewHead newArgument hnewArgument
      hordered hordered'
    refine horder _ _ _ hordered hordered' ?_
    rcases h.2 with hp | hoperator
    · have hfree : binds.All LambdaFree := fun name atom hatom => (hbinds name atom hatom).imp hp
      exact h.1.imp (fun h => lambdasIn_rewriteWith hindices hfree h _ newHead hnewHead)
        fun h => lambdasIn_rewriteWith hindices hfree h _ newArgument hnewArgument
    · -- An operator stays as it is, and there are no lambdas in it.
      cases head with
      | operator op mark =>
          rcases op with ⟨name, properties, parameters, resultType, native⟩
          rw [rewriteWith] at hnewHead
          cases hnewHead
          exact .inl hhead.1.1
      | _ => cases hoperator

/-- Rewriting keeps the order of lambdas, if there is room for those in what is bound. -/
theorem ordered_rewriteWith (horder : KeepsOrder apply) (hbinds : binds.All (Everywhere Ordered))
    (hvalues : binds.All (LambdasIn p)) {atom : Atom} (h : atom.Everywhere Ordered)
    (hroom : atom.Everywhere (RoomFor p)) (place : Place) :
    (rewriteWith apply binds place atom).Yields fun new => new.value.Everywhere Ordered :=
  turned_rewriteWith (turns_ordered hindices horder hvalues) hbinds atom
    (everywhere_and atom h hroom) place

theorem ordered_applyLambda (horder : KeepsOrder apply) {parameter body argument : Atom}
    (hbody : body.Everywhere Ordered) (hroom : body.Everywhere (RoomFor p))
    (hargument : argument.Everywhere Ordered) (hvalues : argument.LambdasIn p)
    (place inner : Place) :
    (applyLambda (guardEvaluator apply inner) place parameter body argument).Yields
      (Everywhere Ordered) := by
  have hinherited := assembled_ordered.inherited.and (assembled_lambdaIndex (p := p)).inherited
  refine yields_applyLambda_of_all hinherited
    (fun h hboth => ⟨assembled_ordered.like h hboth.1, assembled_lambdaIndex.like h hboth.2⟩)
    (fun binds hbinds => ?_) ⟨hargument, hvalues⟩
  exact (ordered_rewriteWith hindices horder (fun name atom hatom => (hbinds name atom hatom).1)
    (fun name atom hatom => (hbinds name atom hatom).2) hbody hroom inner).andThen
      fun new hnew => yields_value hnew

end

/-- A head can be applied to an argument without putting a lambda under another of a lower index:
it is an operator, or a lambda in whose body there is room for the lambdas in the argument, or else
one of the two is without lambdas. -/
def HasRoom : Atom → Atom → Prop
  | operator _ _, _ => True
  | lambda _ body _, argument => ∃ p, argument.LambdasIn p ∧ body.Everywhere (RoomFor p)
  | head, argument => head.LambdaFree ∨ argument.LambdaFree

theorem everywhere_roomFor_nothing {atom : Atom} (h : atom.Everywhere Ordered) :
    atom.Everywhere (RoomFor fun _ => False) :=
  everywhere_imp (fun atom _ => roomFor_nothing (fun _ => id) atom) atom h

theorem hasRoom_of_lambdaFree {head argument : Atom} (hhead : head.Everywhere Ordered)
    (h : head.LambdaFree ∨ argument.LambdaFree) : head.HasRoom argument := by
  cases head with
  | operator op mark => trivial
  | lambda parameter body mark =>
      exact ⟨fun _ => False, h.resolve_left fun hfree => hfree.1,
        everywhere_roomFor_nothing hhead.2.2⟩
  | _ => exact h

section

variable {natives : Natives} (hnatives : natives.KeepOrder)
include hnatives

theorem ordered_applyWith {apply : Place → Atom → Atom → Evaluation Atom}
    (hindices : KeepsIndices apply) (horder : KeepsOrder apply) (place inner : Place)
    {head argument : Atom} (hhead : head.Everywhere Ordered)
    (hargument : argument.Everywhere Ordered) (hroom : head.HasRoom argument) :
    (applyWith natives (guardEvaluator apply inner) place head argument).Yields
      (Everywhere Ordered) := by
  cases head with
  | operator op mark =>
      exact assembled_ordered.yields_applyWith hnatives.ordered hhead hargument
  | lambda parameter body mark =>
      rcases hroom with ⟨p, hvalues, hbody⟩
      exact ordered_applyLambda hindices horder hhead.2.2 hbody hargument hvalues place inner
  | _ => exact yields_value ⟨hroom, hhead, hargument⟩

theorem keepsOrder_applyWithin (nesting : Nat) : KeepsOrder (applyWithin natives nesting) := by
  induction nesting with
  | zero => exact fun _ _ _ _ _ _ => yields_error _
  | succ nesting ih =>
      intro place head argument hhead hargument hfree
      exact ordered_applyWith hnatives (keepsIndices_applyWithin hnatives nesting) ih place
        (2 :: place) hhead hargument (hasRoom_of_lambdaFree hhead hfree)

theorem ordered_applyWithin {nesting : Nat} {place : Place} {head argument : Atom}
    (hhead : head.Everywhere Ordered) (hargument : argument.Everywhere Ordered)
    (hroom : head.HasRoom argument) :
    (applyWithin natives nesting place head argument).Yields (Everywhere Ordered) := by
  cases nesting with
  | zero => exact yields_error _
  | succ nesting =>
      exact ordered_applyWith hnatives (keepsIndices_applyWithin hnatives nesting)
        (keepsOrder_applyWithin hnatives nesting) place (2 :: place) hhead hargument hroom

end

end Atom

/-!
## The engine

Whatever is bound by matching an ordered subject is ordered, whatever the pattern is; and atoms
without lambdas may be put anywhere.
-/

namespace Engine

variable {engine : Engine}

theorem ordered_tryMatch {pattern subject : Atom} {binds found : Bindings}
    (hsubject : subject.Everywhere Ordered) (hbinds : binds.All (Everywhere Ordered))
    (hfound : found ∈ (engine.tryMatch pattern subject binds).alternatives) :
    found.All (Everywhere Ordered) :=
  all_of_mem_search assembled_ordered.inherited hsubject hbinds hfound

section

variable (hnatives : engine.natives.KeepOrder)
include hnatives

theorem ordered_apply {head argument : Atom} (hhead : head.Everywhere Ordered)
    (hargument : argument.Everywhere Ordered) (hroom : head.HasRoom argument) :
    (engine.apply head argument).Yields (Everywhere Ordered) :=
  ordered_applyWithin hnatives hhead hargument hroom

theorem ordered_rewrite {binds : Bindings} {atom : Atom} {p : UInt64 → Prop}
    (hbinds : binds.All (Everywhere Ordered)) (hvalues : binds.All (LambdasIn p))
    (h : atom.Everywhere Ordered) (hroom : atom.Everywhere (RoomFor p)) :
    (engine.rewrite binds atom).Yields fun new => new.value.Everywhere Ordered :=
  ordered_rewriteWith (keepsIndices_applyWithin hnatives engine.nesting)
    (keepsOrder_applyWithin hnatives engine.nesting) hbinds hvalues h hroom engine.place

theorem ordered_evaluate {binds : Bindings} {atom : Atom} (hbinds : binds.All (Everywhere Ordered))
    (hfree : binds.All LambdaFree) (h : atom.Everywhere Ordered) :
    (engine.evaluate binds atom).Yields (Everywhere Ordered) :=
  (ordered_rewrite hnatives hbinds hfree h (everywhere_roomFor_nothing h)).andThen
    fun _ hnew => yields_value hnew

theorem lambdasIn_evaluate {binds : Bindings} {atom : Atom} {p : UInt64 → Prop}
    (hbinds : binds.All (LambdasIn p)) (h : atom.LambdasIn p) :
    (engine.evaluate binds atom).Yields (LambdasIn p) :=
  (keepsIndices_applyWithin hnatives engine.nesting).kept.keeps engine.place binds atom hbinds h

/-- The lambda of an ordered variable and an ordered body is ordered, unless the indices are
exhausted. -/
theorem ordered_lambda {parameter body : Atom} (hparameter : parameter.Everywhere Ordered)
    (hbody : body.Everywhere Ordered) (hindex : body.bindingIndex + 1 ≠ 0) :
    (engine.lambda parameter body).Yields (Everywhere Ordered) := by
  intro result h
  rcases exists_of_lambda h with
    ⟨name, type, guard, mark, newGuard, newBody, rfl, hguard, hnewBody, rfl⟩
  have hbinder : ∀ condition : Option Atom, OptionEverywhere Ordered condition →
      OptionEverywhere (LambdaIndex fun _ => False) condition → ∀ place,
      ((binder body type condition).marked place).Everywhere Ordered ∧
        ((binder body type condition).marked place).LambdaFree := by
    intro condition hordered hfree place
    exact ⟨assembled_ordered.like (like_marked id _ _).symm
        ⟨⟨hparameter.1.1, hfree⟩, hparameter.2.1, hordered⟩,
      assembled_lambdaIndex.like (like_marked id _ _).symm ⟨trivial, hparameter.1.1, hfree⟩⟩
  have hnewGuard : OptionEverywhere Ordered newGuard ∧
      OptionEverywhere (LambdaIndex fun _ => False) newGuard := by
    cases hguard with
    | none => exact ⟨trivial, trivial⟩
    | some hrenamed =>
        have hplain := hbinder none trivial trivial (2 :: engine.place)
        exact ⟨@ordered_evaluate (engine.step 0) hnatives _ _ (NameMap.all_empty.insert hplain.1)
            (NameMap.all_empty.insert hplain.2) hparameter.2.2 _ hrenamed,
          @lambdasIn_evaluate (engine.step 0) hnatives _ _ _ (NameMap.all_empty.insert hplain.2)
            hparameter.1.2 _ hrenamed⟩
  have hnew := hbinder newGuard hnewGuard.1 hnewGuard.2 (3 :: engine.place)
  refine ⟨?_, hnew.1, @ordered_evaluate (engine.step 1) hnatives _ _
    (NameMap.all_empty.insert hnew.1) (NameMap.all_empty.insert hnew.2) hbody _ hnewBody⟩
  have hlambdas := @lambdasIn_evaluate (engine.step 1) hnatives _ _ _
    (NameMap.all_empty.insert hnew.2.lambdasIn) (lambdasIn_bindingIndex body hbody) _ hnewBody
  refine hlambdas.imp fun index hle => ?_
  rw [bindingIndex_marked]
  exact UInt64.le_of_lt ((lt_add_one_iff hindex).mpr hle)

end

end Engine

theorem Native.keepOrder_standard : Natives.KeepOrder standard where
  indices _ := keep_standard (fun _ => ⟨trivial, trivial⟩) (fun _ => trivial) assembled_lambdaIndex
  ordered := keep_standard ordered_literal (fun _ => trivial) assembled_ordered

end Equational
