import Equational.Proofs.RewritingTerms

/-!
# Instances of normal terms

Where operators have neither units nor absorbers, rewriting drops nothing: the
instance of an application is an application of the same operator to the
instances of its arguments, flattened.  An instance is at least as deep as the
term, and the constants among the arguments are still there.
-/

namespace Equational

open Atom

/-!
## Names of variables

Constants are the atoms without pattern variables.
-/

namespace Atom

def freeNames : Atom → List String := gather (fun _ role => role.isShown) freeName

theorem isConstant_iff_freeNames (atom : Atom) : atom.isConstant = true ↔ atom.freeNames = [] := by
  induction atom using parts_induction with
  | step atom ih =>
      rw [isConstant_iff, freeNames, gather_eq_nil_iff]
      exact and_congr_right fun _ => forall₂_congr fun part hpart =>
        imp_congr_right fun _ => ih part hpart

theorem freeNames_sequence (s : Sequence Atom) (mark : Mark) : (sequence s mark).freeNames =
    s.properties.values.flatMap freeNames ++ s.elements.flatMap freeNames := by
  rw [freeNames, gather_eq]
  simp [freeName, parts, Role.isShown, List.filter_map, List.flatMap_map, Function.comp_def]

theorem freeNames_application (head argument : Atom) (bound : Bindings) (mark : Mark) :
    (application head argument bound mark).freeNames = head.freeNames ++ argument.freeNames := by
  rw [freeNames, gather_eq]
  simp [freeName, parts, Role.isShown]

theorem depth_le_listDepth {atom : Atom} {list : List Atom} (h : atom ∈ list) :
    atom.depth ≤ listDepth list := by
  induction list with
  | nil => cases h
  | cons first rest ih =>
      rw [listDepth]
      rcases List.mem_cons.mp h with rfl | h
      · exact Nat.le_max_left _ _
      · exact Nat.le_trans (ih h) (Nat.le_max_right _ _)

theorem listDepth_le {list : List Atom} {n : Nat} (h : ∀ atom ∈ list, atom.depth ≤ n) :
    listDepth list ≤ n := by
  induction list with
  | nil => exact Nat.zero_le n
  | cons first rest ih =>
      rw [listDepth]
      exact Nat.max_le.mpr ⟨h first List.mem_cons_self,
        ih fun atom hatom => h atom (List.mem_cons_of_mem _ hatom)⟩

theorem IsFree.freeNames {name : String} {atom : Atom} (h : atom.IsFree name) :
    atom.freeNames = [name] := by
  rcases h with ⟨type, mark, rfl, -⟩
  rfl

theorem IsFree.depth {name : String} {atom : Atom} (h : atom.IsFree name) : atom.depth = 0 := by
  rcases h with ⟨type, mark, rfl, -⟩
  rfl

end Atom

/-!
## Operators that drop nothing

Without identity and absorber nothing is dropped, and an application of an associative operator
that has arguments contributes two of them at least.
-/

variable {signature : Operator Atom → Prop}

/-- A plain signature without identities and absorbers. -/
structure KeepingSignature (signature : Operator Atom → Prop) : Prop
    extends PlainSignature signature where
  identity : ∀ op, signature op → op.properties.identity = none
  absorber : ∀ op, signature op → op.properties.absorber = none

namespace Operator

/-- What an atom contributes to the arguments: several if the operator is associative and the atom
an application of it. -/
def parts (op : Operator Atom) (atom : Atom) : List Atom :=
  if op.properties.isAssociative then op.pieces atom else [atom]

theorem parts_of_heads_eq_false {op : Operator Atom} {atom : Atom}
    (h : op.properties.isAssociative = true → op.heads atom = false) : op.parts atom = [atom] := by
  unfold parts
  split
  · rename_i hassociative
    exact pieces_of_heads_eq_false (h hassociative)
  · rfl

theorem flatMap_parts_of_flat {op : Operator Atom} {list : List Atom}
    (h : op.properties.isAssociative = true → op.Flat list) : list.flatMap op.parts = list := by
  have hparts : ∀ atom ∈ list, op.parts atom = [atom] := fun atom hatom =>
    parts_of_heads_eq_false fun hassociative => (h hassociative).heads atom hatom
  rw [List.flatMap_congr hparts]
  simp

end Operator

namespace KeepingSignature

variable {op : Operator Atom} {list : List Atom}

theorem settled_eq (hsignature : KeepingSignature signature) (hop : signature op) :
    op.settled list = list.flatMap op.parts := by
  unfold Operator.settled
  cases hassociative : op.properties.isAssociative with
  | false =>
      have hparts : op.parts = fun atom => [atom] := by
        funext atom
        rw [Operator.parts, hassociative]
        rfl
      simp [hparts]
  | true =>
      have hparts : op.parts = op.pieces := by
        funext atom
        rw [Operator.parts, if_pos hassociative]
      have hunit : ∀ atom, op.isUnit atom = false := by
        intro atom
        rw [Operator.isUnit, hsignature.identity op hop]
        rfl
      rw [if_pos rfl, Operator.simplify_eq_filter (hsignature.plain op hop).idempotent,
        Operator.flatten_eq_flatMap]
      simp [hparts, hunit]

theorem ofList_eq (hsignature : KeepingSignature signature) (hop : signature op)
    (hlist : ∀ atom ∈ list, Normal signature atom) :
    Sequence.ofList op.properties list = ⟨op.properties, list⟩ := by
  rw [Sequence.ofList, Sequence.normalize_eq_self (hsignature.plain op hop).idempotent]
  intro _ atom hatom
  rw [hsignature.identity op hop, hsignature.absorber op hop]
  exact ⟨(hlist atom hatom).sequence?_eq_none, rfl, rfl⟩

theorem two_le_length_pieces (hsignature : KeepingSignature signature) (hop : signature op)
    (hassociative : op.properties.isAssociative = true) (hparameters : op.parameters ≠ [])
    {atom : Atom} (hatom : Normal signature atom) (hheads : op.heads atom = true) :
    2 ≤ (op.pieces atom).length := by
  rcases Operator.heads_eq_true_iff.mp hheads with
    ⟨inner, mark, argument, bound, outerMark, rfl, hbeq⟩
  rw [Operator.pieces_application hbeq]
  cases hatom with
  | @application _ _ listMark _ arguments _ hinner hlist hflat haccepts =>
      change 2 ≤ arguments.length
      have hsame := hsignature.faithful inner op hinner hop ((Operator.beq_iff inner op).mp hbeq).2
      have hinnerAssociative := hsame.isAssociative.trans hassociative
      have henough := haccepts.enough hinnerAssociative
      have hseveral := haccepts.several hinnerAssociative
      have hpositive := List.length_pos_iff.mpr hparameters
      rw [hsame.length_parameters] at henough
      omega

theorem parts_ne_nil (hsignature : KeepingSignature signature) (hop : signature op)
    (hparameters : op.properties.isAssociative = true → op.parameters ≠ []) {atom : Atom}
    (hatom : Normal signature atom) : op.parts atom ≠ [] := by
  unfold Operator.parts
  split
  · rename_i hassociative
    cases hheads : op.heads atom with
    | false =>
        rw [Operator.pieces_of_heads_eq_false hheads]
        exact List.cons_ne_nil _ _
    | true =>
        have htwo := hsignature.two_le_length_pieces hop hassociative (hparameters hassociative)
          hatom hheads
        intro hnil
        rw [hnil] at htwo
        cases htwo
  · exact List.cons_ne_nil _ _

theorem length_le_length_flatMap (hsignature : KeepingSignature signature) (hop : signature op)
    (hparameters : op.properties.isAssociative = true → op.parameters ≠ [])
    (hlist : ∀ atom ∈ list, Normal signature atom) :
    list.length ≤ (list.flatMap op.parts).length := by
  have hruns : ∀ run ∈ list.map op.parts, run ≠ [] := by
    intro run hrun
    rcases List.mem_map.mp hrun with ⟨atom, hatom, rfl⟩
    exact hsignature.parts_ne_nil hop hparameters (hlist atom hatom)
  have hlength := length_le_length_flatten hruns
  rwa [List.length_map, ← List.flatMap_def] at hlength

end KeepingSignature

/-!
## Instances

Only a variable becomes an application of another operator, so what is not a variable contributes
one argument, as it did before; and an instance is at least as deep as the term.
-/

/-- Every name is bound to a constant normal term. -/
def NameMap.Grounds (signature : Operator Atom → Prop) (binds : Bindings) : Prop :=
  ∀ name atom, binds.find? name = some atom → Normal signature atom ∧ atom.isConstant = true

def Engine.RewritesTo (engine : Engine) (binds : Bindings) (atom value : Atom) : Prop :=
  ∃ (place : Place) (new : Rewritten Atom),
    (rewriteWith engine.applyAt binds place atom).result = .ok new ∧ new.value = value

namespace Engine.RewritesTo

variable {engine : Engine} {binds : Bindings} {atom value : Atom}

theorem eq_of_isConstant (hsignature : PlainSignature signature) (hatom : Normal signature atom)
    (hconstant : atom.isConstant = true) (h : engine.RewritesTo binds atom value) :
      value = atom := by
  rcases h with ⟨place, new, hnew, rfl⟩
  rw [rewriteWith_of_isInert ((hatom.isInert_iff hsignature).mpr (Or.inr hconstant))] at hnew
  cases hnew
  rfl

theorem eq_of_find? {name : String} {bound : Atom} (hatom : atom.IsFree name)
    (hfind : binds.find? name = some bound) (h : engine.RewritesTo binds atom value) :
    value = bound := by
  rcases h with ⟨place, new, hnew, rfl⟩
  rw [rewriteWith_free hatom hfind] at hnew
  cases hnew
  rfl

theorem forall₂_of_rewriteList {place : Place} {list : List Atom} {new : Rewritten (List Atom)}
    (h : (rewriteList engine.applyAt binds place list).result = .ok new) :
    List.Forall₂ (engine.RewritesTo binds) list new.value :=
  Atom.forall₂_of_rewriteList h fun _ _ place first hfirst => ⟨place, first, hfirst, rfl⟩

theorem normal (hsignature : KeepingSignature signature) (hbinds : binds.Grounds signature)
    (hatom : Normal signature atom) (h : engine.RewritesTo binds atom value) :
    Normal signature value := by
  induction hatom generalizing value with
  | literal literal type mark =>
      rw [h.eq_of_isConstant hsignature.toPlainSignature (.literal literal type mark) rfl]
      exact .literal literal type mark
  | var name type mark hany =>
      have hfree : IsFree name (.var name type none 0 mark) := ⟨type, mark, rfl, hany⟩
      cases hfind : binds.find? name with
      | none =>
          rcases h with ⟨place, new, hnew, rfl⟩
          rw [rewriteWith_free_unbound hfree hfind] at hnew
          cases hnew
          exact .var name type mark hany
      | some bound =>
          rw [h.eq_of_find? hfree hfind]
          exact (hbinds name bound hfind).1
  | @application op mark listMark outerMark list bound hop hlist hflat haccepts ih =>
      rcases h with ⟨place, new, hnew, rfl⟩
      have hplain := hsignature.plain op hop
      have happlication :=
        @Normal.application _ _ mark listMark outerMark _ bound hop hlist hflat haccepts
      cases hinert : isInert (.application (.operator op mark) (.sequence ⟨op.properties, list⟩
          listMark) bound outerMark) binds with
      | true =>
          rw [rewriteWith_of_isInert hinert] at hnew
          cases hnew
          exact happlication
      | false =>
          rcases (Normal.rewriteWith_application hplain hinert).mp hnew
            with ⟨rewritten, hrewritten, hcases⟩
          have hvalues : ∀ atom ∈ rewritten.value, Normal signature atom := by
            intro atom hatom
            rcases exists_of_mem_forall₂ (forall₂_of_rewriteList hrewritten).flip hatom with
              ⟨source, hsource, hrewrites⟩
            exact ih source hsource hrewrites
          split at hcases
          · rcases hcases with ⟨applied, happlied, rfl⟩
            rcases Engine.exists_of_applyAt_ok happlied with ⟨evaluate, happlied⟩
            refine Normal.of_applyWith hsignature.toPlainSignature hop
              op.mismatch?_properties ?_ happlied
            rw [hsignature.ofList_eq hop hvalues]
            exact hvalues
          · rw [hcases]
            exact happlication

/-- What rewriting makes of an application are the instances of its arguments below its operator,
flattened. -/
theorem application (hsignature : KeepingSignature signature) (hbinds : binds.Grounds signature)
    {op : Operator Atom} {mark listMark outerMark : Mark} {list : List Atom} {bound : Bindings}
    (hop : signature op) (hlist : ∀ atom ∈ list, Normal signature atom)
    (hflat : op.properties.isAssociative = true → op.Flat list) (haccepts : op.Accepts list.length)
    (h : engine.RewritesTo binds (.application (.operator op mark)
      (.sequence ⟨op.properties, list⟩ listMark) bound outerMark) value) :
    ∃ values, List.Forall₂ (engine.RewritesTo binds) list values ∧
      ∃ mark' listMark' bound' outerMark', value = .application (.operator op mark')
        (.sequence ⟨op.properties, values.flatMap op.parts⟩ listMark') bound' outerMark' := by
  rcases h with ⟨place, new, hnew, rfl⟩
  have hplain := hsignature.plain op hop
  -- an application that is given back as it was is put together from its own arguments
  have hsame : ∀ {values : List Atom}, List.Forall₂ (engine.RewritesTo binds) list values →
      values = list → new.value = .application (.operator op mark)
        (.sequence ⟨op.properties, list⟩ listMark) bound outerMark →
      ∃ values, List.Forall₂ (engine.RewritesTo binds) list values ∧
        ∃ mark' listMark' bound' outerMark', new.value = .application (.operator op mark')
          (.sequence ⟨op.properties, values.flatMap op.parts⟩ listMark') bound' outerMark' := by
    intro values hall hvalues hvalue
    refine ⟨values, hall, mark, listMark, bound, outerMark, ?_⟩
    rw [hvalue, hvalues, Operator.flatMap_parts_of_flat hflat]
  cases hinert : isInert (.application (.operator op mark) (.sequence ⟨op.properties, list⟩
      listMark) bound outerMark) binds with
  | true =>
      rw [rewriteWith_of_isInert hinert] at hnew
      cases hnew
      have hrewrites : (rewriteList engine.applyAt binds place list).result = .ok ⟨list, false⟩ :=
        rewriteList_of_isInert fun atom hatom => Normal.isInert_of_application
          hsignature.toPlainSignature hop (.application hop hlist hflat haccepts) hlist hinert hatom
      exact hsame (forall₂_of_rewriteList hrewrites) rfl rfl
  | false =>
      rcases (Normal.rewriteWith_application hplain hinert).mp hnew
        with ⟨rewritten, hrewritten, hcases⟩
      have hall := forall₂_of_rewriteList hrewritten
      have hvalues : ∀ atom ∈ rewritten.value, Normal signature atom := by
        intro atom hatom
        rcases exists_of_mem_forall₂ hall.flip hatom with ⟨source, hsource, hrewrites⟩
        exact normal hsignature hbinds (hlist source hsource) hrewrites
      cases hchanged : rewritten.changed with
      | false =>
          rw [hchanged] at hcases
          exact hsame hall (list_value_of_not_changed hrewritten hchanged) (by rw [hcases])
      | true =>
          have hpositive : list.length ≠ 0 := by
            intro hzero
            rw [List.length_eq_zero_iff.mp hzero] at hrewritten
            cases hrewritten
            cases hchanged
          have hparameters : op.properties.isAssociative = true → op.parameters ≠ [] :=
            fun hassociative hnil => hpositive (haccepts.empty hassociative hnil)
          rw [hchanged, if_pos rfl] at hcases
          rcases hcases with ⟨applied, happlied, rfl⟩
          rcases Engine.exists_of_applyAt_ok happlied with ⟨evaluate, happlied⟩
          rw [hsignature.ofList_eq hop hvalues] at happlied
          rcases hplain.applyWith_cases op.mismatch?_properties happlied with
            ⟨hassociative, habsorber | hidentity | hsingle⟩ | ⟨habsorbs, -, bound', happly⟩
          · rw [hsignature.absorber op hop] at habsorber
            cases habsorber
          · rw [hsignature.identity op hop] at hidentity
            cases hidentity
          · have hlength := hsignature.length_le_length_flatMap hop
              (fun _ => hparameters hassociative) hvalues
            rw [← hsignature.settled_eq hop, hsingle, ← hall.length_eq] at hlength
            have hseveral := haccepts.several hassociative
            change list.length ≤ 1 at hlength
            omega
          · refine ⟨rewritten.value, hall, .new, .new, bound', .new, ?_⟩
            rcases Operator.settled_spec hsignature.toPlainSignature hop hvalues habsorbs with
              ⟨hsettled, -⟩
            rw [happly, Operator.assembled, hsignature.ofList_eq hop hsettled,
              hsignature.settled_eq hop]

theorem heads_eq (hsignature : KeepingSignature signature) (hbinds : binds.Grounds signature)
    (hatom : Normal signature atom) (h : engine.RewritesTo binds atom value) :
    (∃ name, atom.IsFree name) ∨ ∀ op : Operator Atom, op.heads value = op.heads atom := by
  cases hatom with
  | literal literal type mark =>
      rw [h.eq_of_isConstant hsignature.toPlainSignature (.literal literal type mark) rfl]
      exact Or.inr fun _ => rfl
  | var name type mark hany => exact Or.inl ⟨name, type, mark, rfl, hany⟩
  | application hop hlist hflat haccepts =>
      rcases h.application hsignature hbinds hop hlist hflat haccepts with
        ⟨values, -, mark, listMark, bound, outerMark, rfl⟩
      exact Or.inr fun _ => rfl

theorem parts_eq (hsignature : KeepingSignature signature) (hbinds : binds.Grounds signature)
    (hatom : Normal signature atom) (h : engine.RewritesTo binds atom value) {op : Operator Atom}
    (hheads : op.properties.isAssociative = true → op.heads atom = false) :
    (∃ name, atom.IsFree name) ∨ op.parts value = [value] := by
  rcases h.heads_eq hsignature hbinds hatom with hfree | hequal
  · exact Or.inl hfree
  · refine Or.inr (Operator.parts_of_heads_eq_false fun hassociative => ?_)
    rw [hequal op, hheads hassociative]

theorem depth_le (hsignature : KeepingSignature signature) (hbinds : binds.Grounds signature)
    (hatom : Normal signature atom) (h : engine.RewritesTo binds atom value) :
    atom.depth ≤ value.depth := by
  induction hatom generalizing value with
  | literal literal type mark => exact Nat.zero_le _
  | var name type mark hany => exact Nat.zero_le _
  | @application op mark listMark outerMark list bound hop hlist hflat haccepts ih =>
      rcases h.application hsignature hbinds hop hlist hflat haccepts with
        ⟨values, hall, mark', listMark', bound', outerMark', rfl⟩
      have hlistDepth : listDepth list ≤ listDepth (values.flatMap op.parts) := by
        refine listDepth_le fun atom hatom => ?_
        rcases exists_of_mem_forall₂ hall hatom with ⟨value, hvalue, hrewrites⟩
        rcases parts_eq hsignature hbinds (hlist atom hatom) hrewrites
            fun hassociative => (hflat hassociative).heads atom hatom with ⟨name, hfree⟩ | hparts
        · rw [hfree.depth]
          exact Nat.zero_le _
        · refine Nat.le_trans (ih atom hatom hrewrites) (depth_le_listDepth ?_)
          rw [List.mem_flatMap]
          exact ⟨value, hvalue, hparts ▸ List.mem_singleton.mpr rfl⟩
      simp only [depth]
      omega

end Engine.RewritesTo

end Equational
