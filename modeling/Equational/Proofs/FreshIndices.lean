import Equational.Proofs.DanglingVariables
import Equational.Proofs.LambdaIndices
import Equational.Proofs.Restoration

/-!
# Fresh indices

A lambda takes the index above the one that its body shows.  That index is fresh if
nothing in the body has it or a greater one.  A body can hide greater indices in two
ways: in a lambda under another of a lower index, and in a variable that dangles under
a lambda of a lower index or in a type.  What is made with room hides no lambdas, so
that only dangling variables and the end of the indices are left.
-/

namespace Equational

open Atom Evaluation

namespace Atom

/-!
## All indices in an atom

The indices in an atom are those of its lambdas and those of the variables that dangle in it.
-/

/-- If the atom is a bound variable or a lambda, its index satisfies a condition. -/
def HasIndex (p : UInt64 → Prop) : Atom → Prop
  | var _ _ _ index _ => index ≠ 0 → p index
  | lambda parameter _ _ => p parameter.bindingIndex
  | _ => True

abbrev IndicesIn (p : UInt64 → Prop) (atom : Atom) : Prop := atom.Everywhere (HasIndex p)

section

variable {p : UInt64 → Prop}

theorem indicesIn_iff (atom : Atom) : atom.IndicesIn p ↔ atom.LambdasIn p ∧ atom.DanglesIn p := by
  induction atom using parts_induction with
  | step atom ih =>
      have hparts : (∀ part ∈ atom.parts, part.2.IndicesIn p) ↔
          (∀ part ∈ atom.parts, part.2.LambdasIn p) ∧ ∀ part ∈ atom.parts, part.2.DanglesIn p :=
        (forall₂_congr ih).trans forall₂_and
      rw [IndicesIn, everywhere_iff, hparts, LambdasIn, everywhere_iff, danglesIn_iff]
      cases atom with
      | var name type guard index mark => exact ⟨fun h => ⟨⟨trivial, h.2.1⟩, h.1, h.2.2⟩,
          fun h => ⟨h.2.1, h.1.2, h.2.2⟩⟩
      | lambda parameter body mark =>
          rw [and_assoc]
          refine and_congr_right fun hown => and_congr_right fun _ => forall₂_congr fun part _ => ?_
          refine forall₂_congr fun index _ => ⟨fun h _ => h, fun h => ?_⟩
          by_cases hindex : index = parameter.bindingIndex
          · exact hindex ▸ hown
          · exact h hindex
      | _ => exact and_assoc.symm

end

theorem IndicesIn.imp {p q : UInt64 → Prop} (himp : ∀ index, p index → q index) {atom : Atom}
    (h : atom.IndicesIn p) : atom.IndicesIn q := by
  rw [indicesIn_iff] at h ⊢
  exact ⟨h.1.imp himp, fun index hmem => himp index (h.2 index hmem)⟩

/-!
## Atoms that are formed with room
-/

/-- What comes of ordered atoms, step by step: atoms are put together, abstracted, applied and
rewritten as long as there is an index left and room for what is put in the place of variables;
they are bound by matching, and restored from their stored bytes. -/
inductive Formed (natives : Natives) : Atom → Prop
  | ordered {atom : Atom} : atom.Everywhere Ordered → Formed natives atom
  | propertySet {properties : Properties} {mark : Mark} :
      (∀ law value, properties.get law = some value → Formed natives value) →
      Formed natives (propertySet properties mark)
  | sequence {properties : Properties} {list : List Atom} {listMark mark : Mark} :
      Formed natives (propertySet properties listMark) → (∀ atom ∈ list, Formed natives atom) →
      Formed natives (sequence (.ofList properties list) mark)
  | lambda {nesting : Nat} {place : Place} {parameter body result : Atom} :
      Formed natives parameter → Formed natives body → body.bindingIndex + 1 ≠ 0 →
      (Engine.lambda ⟨natives, nesting, place⟩ parameter body).result = .ok result →
      Formed natives result
  | apply {nesting : Nat} {place : Place} {head argument result : Atom} :
      Formed natives head → Formed natives argument → head.HasRoom argument →
      (Engine.apply ⟨natives, nesting, place⟩ head argument).result = .ok result →
      Formed natives result
  | rewrite {nesting : Nat} {place : Place} {binds : Bindings} {atom : Atom} {new : Rewritten Atom}
      {p : UInt64 → Prop} :
      (∀ name value, binds.find? name = some value → Formed natives value) →
      binds.All (LambdasIn p) → Formed natives atom → atom.Everywhere (RoomFor p) →
      (Engine.rewrite ⟨natives, nesting, place⟩ binds atom).result = .ok new →
      Formed natives new.value
  | matched {nesting : Nat} {place : Place} {pattern subject atom : Atom} {binds found : Bindings}
      {name : String} :
      Formed natives subject →
      (∀ name value, binds.find? name = some value → Formed natives value) →
      found ∈ (Engine.tryMatch ⟨natives, nesting, place⟩ pattern subject binds).alternatives →
      found.find? name = some atom → Formed natives atom
  | restored {atom restored : Atom} : Formed natives atom → atom.Storable → atom.Built →
      Atom.decode atom.encode = .ok restored → Formed natives restored

theorem ordered_restored {atom restored : Atom} (h : atom.Everywhere Ordered)
    (hstorable : atom.Storable) (hbuilt : atom.Built)
    (hdecode : Atom.decode atom.encode = .ok restored) : restored.Everywhere Ordered := by
  rw [Cbor.decode_encode_atom hstorable hbuilt] at hdecode
  split at hdecode
  · cases hdecode
    exact (everywhere_bare ordered_bare atom).mpr h
  · cases hdecode

theorem Formed.everywhere_ordered {natives : Natives} (hnatives : natives.KeepOrder) {atom : Atom}
    (h : Formed natives atom) : atom.Everywhere Ordered := by
  induction h with
  | ordered h => exact h
  | propertySet _ ih =>
      refine ⟨trivial, propertiesEverywhere_iff.mpr fun law => optionEverywhere_iff.mpr ?_⟩
      exact fun value hvalue => ih law value hvalue
  | sequence _ _ ihproperties ihlist =>
      exact ⟨trivial, ihproperties.2, listEverywhere_normalize (listEverywhere_iff.mpr ihlist)⟩
  | @lambda nesting place _ _ _ _ _ hindex hresult ihparameter ihbody =>
      exact @Engine.ordered_lambda ⟨natives, nesting, place⟩ hnatives _ _ ihparameter ihbody
        hindex _ hresult
  | @apply nesting place _ _ _ _ _ hroom hresult ihhead ihargument =>
      exact @Engine.ordered_apply ⟨natives, nesting, place⟩ hnatives _ _ ihhead ihargument
        hroom _ hresult
  | @rewrite nesting place _ _ _ _ _ hvalues _ hroom hresult ihbinds ihatom =>
      exact @Engine.ordered_rewrite ⟨natives, nesting, place⟩ hnatives _ _ _ ihbinds hvalues
        ihatom hroom _ hresult
  | matched _ _ hfound hatom ihsubject ihbinds =>
      exact Engine.ordered_tryMatch ihsubject ihbinds hfound _ _ hatom
  | restored _ hstorable hbuilt hdecode ih => exact ordered_restored ih hstorable hbuilt hdecode

/-!
## Freshness
-/

/-- The parameter of a lambda is a bound variable, its index is one above the index that the body
shows, as numbers and not only as words, and every index in the body is below it. -/
structure Fresh (parameter body : Atom) : Prop where
  isBoundVar : parameter.isBoundVar = true
  no_overflow : parameter.bindingIndex.toNat = body.bindingIndex.toNat + 1
  above : body.IndicesIn (· < parameter.bindingIndex)

theorem toNat_add_one {a : UInt64} (h : a + 1 ≠ 0) : (a + 1).toNat = a.toNat + 1 := by
  have hzero : (a + 1).toNat ≠ 0 := fun hzero => h (UInt64.toNat_inj.mp hzero)
  have hlt := a.toNat_lt
  rw [UInt64.toNat_add, UInt64.toNat_one] at hzero ⊢
  omega

end Atom

namespace Engine

variable {engine : Engine}

/-- The variable that a lambda binds is fresh exactly if the indices are not exhausted and the body
hides no index above the one that it shows. -/
theorem fresh_binder_iff {body type : Atom} {guard : Option Atom} {place : Place} :
    ((binder body type guard).marked place).Fresh body ↔ body.bindingIndex + 1 ≠ 0 ∧
      body.IndicesIn (· ≤ body.bindingIndex) := by
  have hindex : ((binder body type guard).marked place).bindingIndex = body.bindingIndex + 1 :=
    bindingIndex_marked _ _
  have hbound : ((binder body type guard).marked place).isBoundVar =
      (body.bindingIndex + 1 != 0) := isBoundVar_marked _ _
  constructor
  · intro hfresh
    have hleft : body.bindingIndex + 1 ≠ 0 := bne_iff_ne.mp (hbound ▸ hfresh.isBoundVar)
    refine ⟨hleft, hfresh.above.imp fun index hlt => ?_⟩
    rw [hindex] at hlt
    exact (lt_add_one_iff hleft).mp hlt
  · rintro ⟨hleft, hbelow⟩
    refine ⟨hbound.trans (bne_iff_ne.mpr hleft), ?_, hbelow.imp fun index hle => ?_⟩
    · rw [hindex, toNat_add_one hleft]
    · rw [hindex]
      exact (lt_add_one_iff hleft).mpr hle

/-- A lambda takes the index above the one that its body shows.  Its parameter is fresh exactly if
the indices are not exhausted and the body hides no index above the one that it shows; in a body
that was formed with room, these could only be indices that dangle. -/
theorem lambda_fresh {parameter body result : Atom}
    (h : (engine.lambda parameter body).result = .ok result) :
    ∃ newParameter newBody, result = .lambda newParameter newBody .new ∧
      newParameter.bindingIndex = body.bindingIndex + 1 ∧
      (newParameter.Fresh body ↔ body.bindingIndex + 1 ≠ 0 ∧
        body.IndicesIn (· ≤ body.bindingIndex)) ∧
      (engine.natives.KeepOrder → Formed engine.natives body →
        (newParameter.Fresh body ↔ body.bindingIndex + 1 ≠ 0 ∧
          body.DanglesIn (· ≤ body.bindingIndex))) := by
  rcases exists_of_lambda h with ⟨name, type, guard, mark, newGuard, newBody, -, -, -, rfl⟩
  refine ⟨_, newBody, rfl, bindingIndex_marked _ _, fresh_binder_iff, fun hnatives hbody => ?_⟩
  have hlambdas := lambdasIn_bindingIndex body (hbody.everywhere_ordered hnatives)
  rw [fresh_binder_iff, indicesIn_iff]
  exact and_congr_right fun _ => and_iff_right hlambdas

theorem keepOrder_idle : idle.natives.KeepOrder where
  indices _ _ _ _ _ h := nomatch h
  ordered _ _ _ _ h := nomatch h

theorem hasRoom_constant : (constant []).HasRoom (identity .new) := by
  refine ⟨(· = 1), ⟨rfl, ⟨trivial, trivial, trivial⟩, trivial, trivial, trivial⟩, ?_⟩
  have hbound : ∀ index : UInt64, index ≠ 0 → (bound [] index).Everywhere (RoomFor (· = 1)) :=
    fun index hindex => ⟨fun hzero => absurd hzero hindex, trivial, trivial⟩
  exact ⟨fun index hone => UInt64.le_of_eq hone, hbound 1 (by decide), hbound 2 (by decide)⟩

theorem formed_constantIdentity : Formed idle.natives constantIdentity := by
  have hx : Formed idle.natives (.free "x" .any) := .ordered (by decide)
  have hinner : (idle.lambda (.free "y" .any) (.free "x" .any)).result =
      .ok (.lambda (bound [] 1) (.free "x" .any) .new) := rfl
  have houter : (idle.lambda (.free "x" .any) (.lambda (bound [] 1) (.free "x" .any) .new)).result =
      .ok (constant []) := rfl
  have hconstant := hx.lambda (.lambda (.ordered (by decide)) hx (by decide) hinner)
    (by decide) houter
  have hz : Formed idle.natives (.free "z" .any) := .ordered (by decide)
  exact hconstant.apply (hz.lambda hz (by decide) lambda_identity) hasRoom_constant apply_constant

/-- The parameter of a lambda around a constant function is fresh. -/
theorem lambda_fresh_constantIdentity : idle.natives.KeepOrder ∧
    Formed idle.natives constantIdentity ∧ ∃ newParameter newBody,
      (idle.lambda (.free "z" .any) constantIdentity).result =
        .ok (.lambda newParameter newBody .new) ∧
      newParameter.bindingIndex = 2 ∧ newParameter.Fresh constantIdentity := by
  have hdangling : constantIdentity.dangling = [] := by decide
  have hresult : (idle.lambda (.free "z" .any) constantIdentity).result =
      .ok (.lambda (bound [] 2) constantIdentity .new) := rfl
  rcases lambda_fresh hresult with ⟨newParameter, newBody, heq, hindex, -, hfresh⟩
  cases heq
  refine ⟨keepOrder_idle, formed_constantIdentity, _, _, hresult, hindex,
    (hfresh keepOrder_idle formed_constantIdentity).mpr ⟨by decide, ?_⟩⟩
  rw [DanglesIn, hdangling]
  exact List.forall_mem_nil _

/-- A lambda of index 2 that lies under one of index 1. -/
def crowded : Atom :=
  .lambda (bound [] 1) (.lambda (bound [] 2) (.lambda (bound [] 1)
    (.var "z" .any none 0 (.made [0, 3])) (.made [1, 3])) (.made [2, 3])) .new

/-- Applying a lambda can put another one under a lambda of a lower index, so that the next lambda
takes an index that is not new.  Above the greatest index, there is none to take. -/
theorem lambda_not_fresh :
    ((idle.lambda (.free "v" .any) (.free "z" .any)) >>= fun inner =>
      idle.lambda (.free "u" .any) inner >>= idle.apply (constant [])).result = .ok crowded ∧
    crowded.dangling = [] ∧
    (∃ newParameter newBody, (idle.lambda (.free "z" .any) crowded).result =
      .ok (.lambda newParameter newBody .new) ∧ ¬ newParameter.Fresh crowded) ∧
    ∃ newParameter newBody, (idle.lambda (.free "x" .any) Cbor.greatestVariable).result =
      .ok (.lambda newParameter newBody .new) ∧ ¬ newParameter.Fresh Cbor.greatestVariable := by
  refine ⟨rfl, by decide, ⟨_, _, rfl, fun h => ?_⟩, ⟨_, _, rfl, fun h => ?_⟩⟩
  · have hinner : (2 : UInt64) < 2 := h.above.2.2.1
    exact absurd hinner (by decide)
  · exact absurd h.isBoundVar (by decide)

end Engine

end Equational
