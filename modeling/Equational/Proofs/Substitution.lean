import Equational.Proofs.Instances
import Equational.Proofs.LeafArguments

/-!
# Substitution under an operator

An operator may be applied before or after variables give way to what they are
bound to.  Applied before, it may have come to its absorber, its identity or a
single argument, and what is put in the place of a variable may be flattened,
dropped or absorb the other arguments.  In both orders the same is left.
-/

namespace Equational

open Atom

/-!
## Rewriting

Like atoms are rewritten to like atoms, wherever they stand.  A leaf is rewritten to what it is
bound to, or to a leaf; an application is given back, or its operator is applied to the rewritten
arguments.
-/

theorem Operator.Structural.isInert_properties {op : Operator Atom} (h : op.Structural)
    {binds : Bindings} : isInert (.propertySet op.properties .new) binds = true :=
  isInert_propertySet h.constant
    (PropertySet.bindingIndex_eq_zero fun law _ => h.isLiteral_of_get law)

namespace Atom

variable {binds : Bindings} {op : Operator Atom} {mark listMark outerMark : Mark} {list : List Atom}
  {bound : Bindings} {properties : Properties}

theorem eq_zero_of_max {a b : UInt64} (h : max a b = 0) : a = 0 ∧ b = 0 := by
  rw [show max a b = if a ≤ b then b else a from rfl] at h
  split at h
  · rename_i hle
    subst h
    exact ⟨UInt64.le_zero_iff.mp hle, rfl⟩
  · rename_i hle
    subst h
    exact absurd UInt64.zero_le hle

theorem bindingIndex_of_mem (h : listIndex list = 0) {atom : Atom} (hatom : atom ∈ list) :
    atom.bindingIndex = 0 := by
  induction list with
  | nil => cases hatom
  | cons first rest ih =>
      rcases eq_zero_of_max h with ⟨hfirst, hrest⟩
      rcases List.mem_cons.mp hatom with rfl | hatom
      · exact hfirst
      · exact ih hrest hatom

theorem bindingIndex_of_mem_values (h : propertiesIndex properties = 0) {value : Atom}
    (hvalue : value ∈ properties.values) : value.bindingIndex = 0 := by
  rcases PropertySet.mem_values.mp hvalue with ⟨law, hlaw⟩
  rcases properties with ⟨a, c, i, b, d⟩
  rcases eq_zero_of_max h with ⟨ha, h⟩
  rcases eq_zero_of_max h with ⟨hc, h⟩
  rcases eq_zero_of_max h with ⟨hi, h⟩
  rcases eq_zero_of_max h with ⟨hb, hd⟩
  cases law with
  | associative => cases hlaw; exact ha
  | commutative => cases hlaw; exact hc
  | idempotent => cases hlaw; exact hi
  | absorber => cases hlaw; exact hb
  | identity => cases hlaw; exact hd

theorem isInert_of_mem (h : isInert (.sequence ⟨properties, list⟩ .new) binds = true) {atom : Atom}
    (hatom : atom ∈ list) : atom.isInert binds = true := by
  simp only [isInert, isConstant, bindingIndex, Bool.or_eq_true, Bool.and_eq_true,
    beq_iff_eq] at h ⊢
  rcases h with hempty | ⟨⟨-, hconstant⟩, hindex⟩
  · exact .inl hempty
  · exact .inr ⟨listConstant_iff.mp hconstant atom hatom,
      bindingIndex_of_mem (eq_zero_of_max hindex).1 hatom⟩

end Atom

namespace Engine.RewritesTo

variable {engine : Engine} {binds : Bindings} {atom value : Atom}

theorem of_isInert (h : atom.isInert binds = true) : engine.RewritesTo binds atom atom :=
  ⟨[], ⟨atom, false⟩, rewriteWith_of_isInert h, rfl⟩

theorem alike (hnatives : engine.natives.Agree id engine.natives) {other value' : Atom}
    (hatoms : Alike atom other) (h : engine.RewritesTo binds atom value)
    (h' : engine.RewritesTo binds other value') : Alike value value' := by
  rcases h with ⟨place, new, hnew, rfl⟩
  rcases h' with ⟨place', new', hnew', rfl⟩
  have hbinds : NameMap.Agree id binds binds := rfl
  have hresults := results_rewriteWith (applyAgree_applyWithin hnatives engine.nesting) hbinds place
    place' atom hatoms
  change Results _ (rewriteWith engine.applyAt binds place atom).result
    (rewriteWith engine.applyAt binds place' other).result at hresults
  rw [hnew, hnew'] at hresults
  cases hresults with
  | ok hagree => exact hagree.value

theorem eq_of_isLiteral (hatom : atom.isLiteral = true) (h : engine.RewritesTo binds atom value) :
    value = atom := by
  rcases h with ⟨place, new, hnew, rfl⟩
  cases atom with
  | literal value type mark =>
      cases hnew
      rfl
  | _ => cases hatom

theorem of_isLeaf (hatom : atom.isLeaf = true) (h : engine.RewritesTo binds atom value) :
    value.isLeaf = true ∨ ∃ name, binds.find? name = some value := by
  rcases isLeaf_cases hatom with ⟨literal, type, mark, rfl⟩ | ⟨name, type, guard, mark, rfl⟩
  · rw [h.eq_of_isLiteral rfl]
    exact .inl rfl
  · rcases h with ⟨place, new, hnew, rfl⟩
    rw [rewriteWith] at hnew
    split at hnew
    · cases hnew
      exact .inl rfl
    · split at hnew
      · rename_i found hfind
        cases hnew
        exact .inr ⟨name, hfind⟩
      · split at hnew
        · cases hnew
          exact .inl rfl
        · simp only [Evaluation.result_bind_eq_ok_iff] at hnew
          rcases hnew with ⟨newType, -, newGuard, -, hnew⟩
          split at hnew
          · cases hnew
            exact .inl rfl
          · cases hnew
            exact .inl rfl

theorem of_application {op : Operator Atom} {mark listMark outerMark : Mark} {list : List Atom}
    {bound : Bindings} (hop : op.Structural)
    (h : engine.RewritesTo binds (.application (.operator op mark)
      (.sequence ⟨op.properties, list⟩ listMark) bound outerMark) value) :
    ∃ values, List.Forall₂ (engine.RewritesTo binds) list values ∧
      ((values = list ∧ value = .application (.operator op mark)
          (.sequence ⟨op.properties, list⟩ listMark) bound outerMark) ∨
        ∃ place, (engine.applyAt place (.operator op mark)
          (.sequence (.ofList op.properties values) .new)).result = .ok value) := by
  rcases h with ⟨place, new, hnew, rfl⟩
  cases hinert : isInert (.sequence ⟨op.properties, list⟩ .new) binds with
  | true =>
      rw [rewriteWith_of_isInert ((isInert_application _).trans hinert)] at hnew
      cases hnew
      exact ⟨list, List.forall₂_same.mpr fun atom hatom => of_isInert (isInert_of_mem hinert hatom),
        .inl ⟨rfl, rfl⟩⟩
  | false =>
      rcases (rewriteWith_application_iff hop.isInert_properties hinert).mp hnew with
        ⟨rewritten, hrewritten, hcases⟩
      refine ⟨rewritten.value, forall₂_of_rewriteList hrewritten, ?_⟩
      cases hchanged : rewritten.changed with
      | true =>
          rw [hchanged, if_pos rfl] at hcases
          rcases hcases with ⟨applied, happlied, rfl⟩
          exact .inr ⟨place, happlied⟩
      | false =>
          rw [hchanged, if_neg Bool.false_ne_true] at hcases
          rw [hcases]
          exact .inl ⟨list_value_of_not_changed hrewritten hchanged, rfl⟩

end Engine.RewritesTo

/-!
## Rewriting what an associative operator gives

A value is rewritten to a value that contributes what its rewritten leaves would.
-/

namespace Engine

variable {engine : Engine} {binds : Bindings} {atom value : Atom}

def rewritten (engine : Engine) (binds : Bindings) (atom : Atom) : Atom :=
  ((engine.rewrite binds atom).result.toOption.map (·.value)).getD atom

theorem exists_rewritten (h : (engine.rewrite binds atom).result.isOk = true) :
    ∃ new, (engine.rewrite binds atom).result = .ok new ∧
      new.value = engine.rewritten binds atom := by
  unfold Engine.rewritten
  cases hresult : (engine.rewrite binds atom).result with
  | ok new => exact ⟨new, rfl, rfl⟩
  | error error =>
      rw [hresult] at h
      cases h

theorem RewritesTo.rewritten (hnatives : engine.natives.Agree id engine.natives)
    (h : engine.RewritesTo binds atom value) :
    engine.RewritesTo binds atom (engine.rewritten binds atom) := by
  rcases h with ⟨place, new, hnew, -⟩
  have hbinds : NameMap.Agree id binds binds := rfl
  have hresults := results_rewriteWith (applyAgree_applyWithin hnatives engine.nesting) hbinds place
    engine.place atom (Like.refl atom)
  change Results _ (rewriteWith engine.applyAt binds place atom).result
    (engine.rewrite binds atom).result at hresults
  rw [hnew] at hresults
  have hok : (engine.rewrite binds atom).result.isOk = true := by
    generalize (engine.rewrite binds atom).result = outcome at hresults ⊢
    cases hresults with
    | ok _ => rfl
  rcases exists_rewritten hok with ⟨other, hother, hvalue⟩
  exact ⟨engine.place, other, hother, hvalue⟩

end Engine

namespace Operator

variable {op : Operator Atom} {engine : Engine} {binds : Bindings} {among : Atom → Prop}
  {atom value result : Atom} {list values rest : List Atom}

/-- Leaves that the hash tells apart; if duplicates are dropped among them, equal variables are
alike. -/
structure Leaves (op : Operator Atom) (among : Atom → Prop) (list : List Atom) : Prop where
  leaf : ∀ atom ∈ list, atom.isLeaf = true
  distinguished : ∀ atom ∈ list, among atom
  alike : op.properties.isIdempotent = true → ∀ a ∈ list, ∀ b ∈ list, a.isFreeVar = true →
    b.isFreeVar = true → Atom.SameTerm a b → Alike a b

section

variable (hop : op.Structural) (hassociative : op.properties.isAssociative = true)
  (hcollision : NoCollision among)
  (hbinds : ∀ name atom, binds.find? name = some atom →
    op.Value (·.isLiteral = true) atom ∧ among atom)
include hop hassociative hcollision hbinds

omit hop hassociative hcollision in
theorem Value.of_rewritten_leaf (hatom : atom.isLeaf = true)
    (h : engine.RewritesTo binds atom value) :
    op.Value (·.isLeaf = true) value ∧ (value.isLeaf = true ∨ among value) := by
  rcases h.of_isLeaf hatom with hvalue | ⟨name, hfind⟩
  · exact ⟨.leaf hvalue, .inl hvalue⟩
  · rcases hbinds name value hfind with ⟨hvalue, hamong⟩
    exact ⟨hvalue.imp fun _ => isLeaf_of_isLiteral, .inr hamong⟩

/-- A value is rewritten to a value that contributes what the rewritten leaves would. -/
theorem Value.rewritten (hatom : op.Value (·.isLeaf = true) atom)
    (h : engine.RewritesTo binds atom value) : op.Value (·.isLeaf = true) value ∧
      ∃ values, List.Forall₂ (engine.RewritesTo binds) (op.pieces atom) values ∧
        op.reduction.residue (op.pieces value) = op.reduction.residue (op.flatten values) := by
  have hsingle : atom.isLeaf = true → op.Value (·.isLeaf = true) value ∧
      ∃ values, List.Forall₂ (engine.RewritesTo binds) (op.pieces atom) values ∧
        op.reduction.residue (op.pieces value) = op.reduction.residue (op.flatten values) := by
    intro hatom
    rw [pieces_of_isLeaf hatom]
    exact ⟨(Value.of_rewritten_leaf hbinds hatom h).1, [value], .cons h .nil, rfl⟩
  cases hatom with
  | leaf hatom => exact hsingle hatom
  | @given list _ hlist hgives =>
      rcases hgives.cases_of_isLeaf hop hassociative hlist with hatom | ⟨bound, rfl⟩
      · exact hsingle hatom
      have hremaining : ∀ atom ∈ op.remaining list, atom.isLeaf = true :=
        fun atom hatom => hlist atom (mem_of_mem_remaining hatom).1
      rcases h.of_application hop with ⟨values, hvalues, hcases⟩
      rw [pieces_applied]
      rcases hcases with ⟨rfl, rfl⟩ | ⟨place, happlied⟩
      · refine ⟨.given hlist hgives, _, hvalues, ?_⟩
        rw [pieces_applied, flatten_of_isLeaf hremaining]
      · -- the operator is applied to a sequence of its laws, which is normalized first
        have hall : ∀ value ∈ values,
            op.Value (·.isLeaf = true) value ∧ (value.isLeaf = true ∨ among value) := by
          intro value hvalue
          rcases exists_of_mem_forall₂ hvalues.flip hvalue with ⟨source, hsource, hrewrites⟩
          exact Value.of_rewritten_leaf hbinds (hremaining source hsource) hrewrites
        rcases residue_flatten_normalize hop hassociative hcollision (fun v hv => (hall v hv).1)
          fun v hv => (hall v hv).2 with ⟨hsubset, hresidue⟩
        have hgives' := Engine.gives_of_applyAt hassociative hop.native
          op.mismatch?_properties happlied
        have hflat : ∀ piece ∈ op.flatten (Sequence.normalize op.properties values),
            piece.isLeaf = true := fun piece hpiece =>
          isLeaf_of_mem_flatten hop hassociative (fun v hv => (hall v (hsubset hv)).1) hpiece
        exact ⟨.given hflat hgives', values, hvalues,
          (hgives'.residue_pieces_of_isLeaf hop hassociative hflat).trans hresidue⟩

theorem Value.rewritten_flatten {list' : List Atom}
    (hlist : ∀ atom ∈ list, op.Value (·.isLeaf = true) atom)
    (h : List.Forall₂ (engine.RewritesTo binds) list list') :
    (∀ value ∈ list', op.Value (·.isLeaf = true) value) ∧
      ∃ values, List.Forall₂ (engine.RewritesTo binds) (op.flatten list) values ∧
        op.reduction.residue (op.flatten list') = op.reduction.residue (op.flatten values) := by
  simp only [flatten_eq_flatMap]
  induction h with
  | nil => exact ⟨by simp, [], .nil, rfl⟩
  | @cons atom value rest rest' hfirst hrest ih =>
      rw [List.forall_mem_cons] at hlist ⊢
      rcases hlist.1.rewritten hop hassociative hcollision hbinds hfirst with
        ⟨hvalue, front, hfront, hresidue⟩
      rcases ih hlist.2 with ⟨hvalues, back, hback, hresidue'⟩
      refine ⟨⟨hvalue, hvalues⟩, front ++ back, List.rel_append hfront hback, ?_⟩
      rw [flatten_eq_flatMap] at hresidue
      rw [List.flatMap_cons, List.flatMap_append]
      exact Reduction.residue_append_congr hresidue hresidue'

end

/-!
## Rewriting what is left

A leaf that equals a law is left as it is, and what absorbs among the leaves absorbs among their
values.  So what is left of the values is what is left of the values of the leaves that are left.
-/

namespace Leaves

theorem pieces_of_gives (h : op.Leaves among list) (hop : op.Structural)
    (hassociative : op.properties.isAssociative = true)
    (hlaws : ∀ law value, op.properties.get law = some value → among value)
    (hgives : op.Gives (op.remaining list) result) : op.Leaves among (op.pieces result) := by
  have hdeclared : ∀ law, op.properties.get law = some result →
      op.Leaves among (op.pieces result) := by
    intro law hget
    have hliteral := hop.isLiteral_of_get law hget
    rw [pieces_of_isLeaf (isLeaf_of_isLiteral hliteral)]
    refine ⟨by simpa using isLeaf_of_isLiteral hliteral, by simpa using hlaws law result hget, ?_⟩
    intro _ a ha b hb _ _ _
    rw [List.mem_singleton.mp ha, List.mem_singleton.mp hb]
    exact Like.refl result
  have hsubset : op.pieces result ⊆ list → op.Leaves among (op.pieces result) := fun hsubset =>
    ⟨fun atom hatom => h.leaf atom (hsubset hatom),
      fun atom hatom => h.distinguished atom (hsubset hatom),
      fun hidempotent a ha b hb => h.alike hidempotent a (hsubset ha) b (hsubset hb)⟩
  cases hgives with
  | absorber _ _ hget => exact hdeclared .absorber hget
  | identity _ hget => exact hdeclared .identity hget
  | argument _ hsingle =>
      have hmem : result ∈ op.remaining list := by
        rw [hsingle]
        exact List.mem_singleton_self result
      apply hsubset
      rw [pieces_of_isLeaf (h.leaf result (mem_of_mem_remaining hmem).1)]
      simpa using (mem_of_mem_remaining hmem).1
  | application habsorbs _ _ _ =>
      apply hsubset
      rw [assembled, pieces_applied, Sequence.ofList,
        normalize_remaining hassociative habsorbs fun atom hatom =>
          nests_of_depth (depth_of_isLeaf (h.leaf atom hatom))]
      exact fun atom hatom => (mem_of_mem_remaining hatom).1

section

variable (h : op.Leaves among list) (hop : op.Structural) (hcollision : NoCollision among)
  (hlaws : ∀ law value, op.properties.get law = some value → among value)
include h hop hcollision hlaws

theorem value_eq (law : Law) {declared : Atom} (hget : op.properties.get law = some declared)
    (hatom : atom ∈ list) (hkey : atom.key = declared.key)
    (hvalue : engine.RewritesTo binds atom value) : value = atom := by
  have hsame := hcollision.of_key_eq (h.distinguished atom hatom) (hlaws law declared hget) hkey
  exact hvalue.eq_of_isLiteral (isLiteral_of_sameTerm hsame (hop.isLiteral_of_get law hget))

variable (hvalues : List.Forall₂ (engine.RewritesTo binds) list values)
include hvalues

theorem residue_eq_none (hresidue : op.reduction.residue list = none) :
    op.reduction.residue (op.flatten values) = none := by
  rcases Reduction.residue_eq_none_iff.mp hresidue with ⟨atom, hatom, habsorbs⟩
  have habsorber := (Bool.and_eq_true _ _).mp habsorbs
  rcases exists_of_absorbs habsorber.1 with ⟨declared, hdeclared, hkey⟩
  rcases exists_of_mem_forall₂ hvalues hatom with ⟨value, hvalue, hrewrites⟩
  rw [h.value_eq hop hcollision hlaws .absorber hdeclared hatom hkey hrewrites] at hvalue
  refine Reduction.residue_eq_none_iff.mpr ⟨atom, ?_, habsorbs⟩
  rw [flatten_eq_flatMap]
  refine List.mem_flatMap.mpr ⟨atom, hvalue, ?_⟩
  rw [pieces_of_isLeaf (h.leaf atom hatom)]
  exact List.mem_singleton_self atom

theorem map_key_residue_flatten (hnatives : engine.natives.Agree id engine.natives)
    (hresidue : op.reduction.residue list = some rest) :
    (op.reduction.residue (op.flatten values)).map (List.map key) =
      (op.reduction.residue (rest.flatMap fun atom =>
        op.pieces (engine.rewritten binds atom))).map (List.map key) := by
  have hrewritten : ∀ atom ∈ list, engine.RewritesTo binds atom (engine.rewritten binds atom) := by
    intro atom hatom
    rcases exists_of_mem_forall₂ hvalues hatom with ⟨value, -, hrewrites⟩
    exact Engine.RewritesTo.rewritten hnatives hrewrites
  -- equal leaves may have been rewritten at several places, so that their values are only alike
  have halike : List.Forall₂ Alike values (list.map (engine.rewritten binds)) := by
    rw [List.forall₂_map_right_iff]
    refine hvalues.flip.imp fun value atom hrewrites => ?_
    exact Engine.RewritesTo.alike hnatives (Like.refl atom) hrewrites
      (Engine.RewritesTo.rewritten hnatives hrewrites)
  have hflatten : (op.flatten values).map key =
      (list.flatMap fun atom => op.pieces (engine.rewritten binds atom)).map key := by
    have hkeys : (op.flatten values).map key =
        (op.flatten (list.map (engine.rewritten binds))).map key :=
      map_key_of_forall₂ (forall₂_flatten rfl halike)
    rwa [flatten_eq_flatMap op (list.map _), List.flatMap_map] at hkeys
  rw [Reduction.map_key_residue hflatten, ← (Reduction.residue_eq_some hresidue).2]
  refine congrArg (Option.map (List.map key)) (Reduction.residue_flatMap_trimmed ?_ ?_).symm
  · intro hidempotent a ha b hb hkey
    have hsame := hcollision.of_key_eq (h.distinguished a ha) (h.distinguished b hb) hkey
    rcases Bool.or_eq_true _ _ |>.mp (h.leaf a ha) with hliteral | hvar
    · have hliteral' := isLiteral_of_sameTerm hsame.symm hliteral
      rw [(hrewritten a ha).eq_of_isLiteral hliteral, (hrewritten b hb).eq_of_isLiteral hliteral',
        map_key_pieces hsame]
      exact List.Subset.refl _
    · have hvar' := isFreeVar_of_sameTerm hsame.symm hvar
      have halike :=
        Engine.RewritesTo.alike hnatives (h.alike hidempotent a ha b hb hvar hvar' hsame)
        (hrewritten a ha) (hrewritten b hb)
      rw [map_key_pieces halike]
      exact List.Subset.refl _
  · intro atom hatom hunit
    rcases exists_of_isUnit hunit with ⟨identity, hdeclared, hkey⟩
    rw [h.value_eq hop hcollision hlaws .identity hdeclared hatom hkey
      (hrewritten atom hatom), pieces_of_isLeaf (h.leaf atom hatom)]
    exact residue_of_isUnit hunit

end

theorem map_key_residue_congr {list' values' : List Atom} (h : op.Leaves among list)
    (h' : op.Leaves among list') (hop : op.Structural) (hcollision : NoCollision among)
    (hlaws : ∀ law value, op.properties.get law = some value → among value)
    (hnatives : engine.natives.Agree id engine.natives)
    (hresidue : op.reduction.residue list = op.reduction.residue list')
    (hvalues : List.Forall₂ (engine.RewritesTo binds) list values)
    (hvalues' : List.Forall₂ (engine.RewritesTo binds) list' values') :
    (op.reduction.residue (op.flatten values)).map (List.map key) =
      (op.reduction.residue (op.flatten values')).map (List.map key) := by
  cases hlist : op.reduction.residue list with
  | none =>
      rw [h.residue_eq_none hop hcollision hlaws hvalues hlist,
        h'.residue_eq_none hop hcollision hlaws hvalues' (hresidue.symm.trans hlist)]
  | some rest =>
      rw [h.map_key_residue_flatten hop hcollision hlaws hvalues hnatives hlist,
        h'.map_key_residue_flatten hop hcollision hlaws hvalues' hnatives
          (hresidue.symm.trans hlist)]

end Leaves

end Operator

theorem NameMap.mem_of_find? {binds : Bindings} {name : String} {atom : Atom}
    (h : binds.find? name = some atom) : (name, atom) ∈ binds.entries := by
  rcases List.lookup_eq_some_iff.mp h with ⟨front, back, hentries, -⟩
  rw [hentries]
  exact List.mem_append_right _ List.mem_cons_self

namespace Engine

variable {engine : Engine} {binds : Bindings} {op : Operator Atom} {among : Atom → Prop}
  {mark listMark : Mark} {list list' : List Atom} {result value other : Atom}

/-!
## Rewriting before and after application

An operator that is not associative is applied to the arguments as they are.
-/

/-- What an associative operator gives for leaves is rewritten to what it gives for their values. -/
theorem rewrite_applyAssociative (hop : op.Structural)
    (hassociative : op.properties.isAssociative = true)
    (hnatives : engine.natives.Agree id engine.natives) (hcollision : NoCollision among)
    (hleaves : op.Leaves among (op.flatten list))
    (hlaws : ∀ law value, op.properties.get law = some value → among value)
    (hbinds : ∀ name atom, binds.find? name = some atom →
      op.Value (·.isLiteral = true) atom ∧ among atom)
    (hlist : ∀ atom ∈ list, op.Value (·.isLeaf = true) atom)
    (hresult : op.Gives (op.remaining (op.flatten list)) result)
    (hvalue : engine.RewritesTo binds result value)
    (hrewritten : List.Forall₂ (engine.RewritesTo binds) list list')
    (hother : op.Gives (op.remaining (op.flatten list')) other) : (value == other) = true := by
  rcases (Operator.Value.given hleaves.leaf hresult).rewritten hop hassociative hcollision hbinds
    hvalue with ⟨hsettled, values, hvalues, hresidue⟩
  rcases Operator.Value.rewritten_flatten hop hassociative hcollision hbinds hlist hrewritten with
    ⟨hlist', values', hvalues', hresidue'⟩
  have hpieces := hleaves.pieces_of_gives hop hassociative hlaws hresult
  have hkeys := hpieces.map_key_residue_congr hleaves hop hcollision hlaws hnatives
    (hresult.residue_pieces_of_isLeaf hop hassociative hleaves.leaf) hvalues hvalues'
  rcases hsettled.settled hop hassociative with ⟨left, given, hleft, hgiven, hequal, hleftResidue⟩
  rw [← hresidue, ← hresidue', ← hleftResidue] at hkeys
  have hright : ∀ atom ∈ op.flatten list', atom.isLeaf = true :=
    fun _ => Operator.isLeaf_of_mem_flatten hop hassociative hlist'
  refine beq_trans (beq_symm hequal)
    (hgiven.beq_of_residue hother hkeys fun habsorbs habsorbs' => ?_)
  rw [Operator.residue_eq_remaining habsorbs, Operator.residue_eq_remaining habsorbs'] at hkeys
  rw [Operator.normalize_remaining hassociative habsorbs fun atom hatom =>
      Operator.nests_of_depth (depth_of_isLeaf (hleft atom hatom)),
    Operator.normalize_remaining hassociative habsorbs' fun atom hatom =>
      Operator.nests_of_depth (depth_of_isLeaf (hright atom hatom))]
  exact Option.some.inj hkeys

theorem exists_assembled_of_applyAt {place : Place} {s : Sequence Atom} (hop : op.Structural)
    (hassociative : op.properties.isAssociative = false)
    (hrequest : op.mismatch? s.properties = none)
    (hresult : (engine.applyAt place (.operator op mark) (.sequence s listMark)).result =
      .ok result) : ∃ bound, result = op.assembled s.elements bound := by
  rcases exists_of_applyAt_ok hresult with ⟨evaluate, happlied⟩
  unfold Operator.applyWith at happlied
  rw [Operator.Plain.arguments_sequence hrequest] at happlied
  change (Evaluation.andThen (Evaluation.value _) _).result = _ at happlied
  rw [Evaluation.value_andThen, hassociative, if_neg Bool.false_ne_true,
    Operator.dispatch_eq_ok_iff hop.native] at happlied
  rcases happlied with ⟨bound, -, rfl⟩
  exact ⟨bound, rfl⟩

theorem rewrite_assembled (hop : op.Structural)
    (hassociative : op.properties.isAssociative = false)
    (hnatives : engine.natives.Agree id engine.natives) {bound bound' : Bindings}
    (hvalue : engine.RewritesTo binds (op.assembled list bound) value)
    (hrewritten : List.Forall₂ (engine.RewritesTo binds) list list') :
    (value == op.assembled list' bound') = true := by
  have hnormal : ∀ list, Sequence.normalize op.properties list = list := by
    intro list
    refine Sequence.normalize_eq_self
      (PropertySet.not_idempotent hop.legal hop.constant hassociative) ?_
    simp [hassociative]
  rw [Operator.assembled, Sequence.ofList, hnormal] at hvalue
  rcases hvalue.of_application hop with ⟨values, hvalues, hcases⟩
  have halike : List.Forall₂ Alike values list' :=
    forall₂_of_common hvalues.flip hrewritten.flip fun _ _ _ _ _ hvalue hother =>
      RewritesTo.alike hnatives (Like.refl _) hvalue hother
  have hkeys := map_key_of_forall₂ halike
  have hassembled : ∃ bound, value = op.assembled values bound := by
    rcases hcases with ⟨rfl, rfl⟩ | ⟨place, happlied⟩
    · refine ⟨bound, ?_⟩
      rw [Operator.assembled, Sequence.ofList, hnormal]
    · rcases exists_assembled_of_applyAt hop hassociative op.mismatch?_properties happlied with
        ⟨bound, rfl⟩
      rw [Sequence.ofList, hnormal]
      exact ⟨bound, rfl⟩
  rcases hassembled with ⟨bound, rfl⟩
  exact Operator.assembled_beq (by rw [hnormal, hnormal, hkeys])

/-- An operator without evaluation, whose laws are literals, may be applied before or after
variables give way to what they are bound to.  If it is idempotent, equal variables have to be
alike. -/
theorem rewrite_apply {new : Rewritten Atom} {listMark' : Mark} (hop : op.Structural)
    (hnatives : engine.natives.Agree id engine.natives) (hcollision : NoCollision among)
    (hlaws : ∀ law value, op.properties.get law = some value → among value)
    (hlist : ∀ atom ∈ list, op.Returned (·.isLeaf = true) atom)
    (hamong : ∀ atom ∈ op.flatten list, among atom)
    (halike : op.properties.isIdempotent = true → ∀ a ∈ op.flatten list, ∀ b ∈ op.flatten list,
      a.isFreeVar = true → b.isFreeVar = true → Atom.SameTerm a b → Alike a b)
    (hbinds : ∀ name atom, binds.find? name = some atom →
      op.Returned (·.isLiteral = true) atom ∧ among atom)
    (hresult : (engine.apply (.operator op mark) (.sequence (.plain list) listMark)).result =
      .ok result)
    (hnew : (engine.rewrite binds result).result = .ok new)
    (hrewritten : List.Forall₂ (fun atom value => ∃ new,
      (engine.rewrite binds atom).result = .ok new ∧ new.value = value) list list')
    (hother : (engine.apply (.operator op mark) (.sequence (.plain list') listMark')).result =
      .ok other) : (new.value == other) = true := by
  have hvalue : engine.RewritesTo binds result new.value := ⟨engine.place, new, hnew, rfl⟩
  have hvalues : List.Forall₂ (engine.RewritesTo binds) list list' :=
    hrewritten.imp fun _ _ ⟨new, hnew, hvalue⟩ => ⟨engine.place, new, hnew, hvalue⟩
  cases hassociative : op.properties.isAssociative with
  | true =>
      have hvalueOf : ∀ atom ∈ list, op.Value (·.isLeaf = true) atom := fun atom hatom =>
        (hlist atom hatom).value hassociative hop.native fun _ h => h
      have hleaves : op.Leaves among (op.flatten list) :=
        ⟨fun _ => Operator.isLeaf_of_mem_flatten hop hassociative hvalueOf, hamong, halike⟩
      refine rewrite_applyAssociative hop hassociative hnatives hcollision hleaves hlaws ?_ hvalueOf
        (gives_of_apply hassociative hop.native hresult) hvalue hvalues
        (gives_of_apply hassociative hop.native hother)
      intro name atom hfind
      rcases hbinds name atom hfind with ⟨hreturned, hatom⟩
      exact ⟨hreturned.value hassociative hop.native fun _ => isLeaf_of_isLiteral, hatom⟩
  | false =>
      have hrequest := op.mismatch?_none
      rcases exists_assembled_of_applyAt hop hassociative hrequest hresult with ⟨bound, rfl⟩
      rcases exists_assembled_of_applyAt hop hassociative hrequest hother with ⟨bound', rfl⟩
      rw [Sequence.elements_plain] at hvalue ⊢
      exact rewrite_assembled hop hassociative hnatives hvalue hvalues

def merge : Operator Atom :=
  ⟨"+", ⟨some (.boolean true), none, some (.boolean true), none, none⟩, [.free "a" .any], none,
    none⟩

def mergeable : List Atom := [.free "x" .any, .integer 2]

def merging : Bindings := ⟨[("x", idle.given merge [.integer 2, .integer 1])]⟩

def mergeParts : List Atom :=
  mergeable ++ [.boolean true, idle.given merge [.integer 2, .integer 1]]

theorem structural_merge : merge.Structural where
  native := rfl
  legal := rfl
  constant := rfl
  absorber _ h := by cases h
  identity _ h := by cases h
  separate _ _ h := by cases h

theorem agree_idle : idle.natives.Agree id idle.natives := by
  intro call call' _
  rw [idle, Option.bind_fun_none, Option.bind_fun_none]
  exact .none

theorem rewrite_apply_merging :
    merge.Structural ∧ idle.natives.Agree id idle.natives ∧ NoCollision (· ∈ mergeParts) ∧
      (∀ law value, merge.properties.get law = some value → value ∈ mergeParts) ∧
      (∀ atom ∈ mergeable, merge.Returned (·.isLeaf = true) atom) ∧
      (∀ atom ∈ merge.flatten mergeable, atom ∈ mergeParts) ∧
      (merge.properties.isIdempotent = true → ∀ a ∈ merge.flatten mergeable,
        ∀ b ∈ merge.flatten mergeable, a.isFreeVar = true → b.isFreeVar = true →
          Atom.SameTerm a b → Alike a b) ∧
      (∀ name atom, merging.find? name = some atom →
        merge.Returned (·.isLiteral = true) atom ∧ atom ∈ mergeParts) ∧
      ∃ result new values other,
        (idle.apply (.operator merge .new) (.sequence (.plain mergeable) .new)).result =
          .ok result ∧
        (idle.rewrite merging result).result = .ok new ∧
        List.Forall₂ (fun atom value => ∃ new,
          (idle.rewrite merging atom).result = .ok new ∧ new.value = value) mergeable values ∧
        (idle.apply (.operator merge .new) (.sequence (.plain values) .new)).result = .ok other ∧
        (new.value == other) = true := by
  have hcollision : NoCollision (· ∈ mergeParts) := by
    have hnodup : (mergeParts.map fingerprint).Nodup := by decide +kernel
    exact noCollision_of_nodup hnodup fun atom hatom => ⟨atom, hatom, rfl⟩
  have hlaws : ∀ law value, merge.properties.get law = some value → value ∈ mergeParts := by
    intro law value hget
    cases law <;> cases hget <;> simp [mergeParts]
  have hleaf : ∀ atom ∈ mergeable, atom.isLeaf = true := by decide
  have hflat : merge.flatten mergeable = mergeable := Operator.flatten_of_isLeaf hleaf
  have halike : ∀ a ∈ mergeable, ∀ b ∈ mergeable, a.isFreeVar = true → b.isFreeVar = true →
      Atom.SameTerm a b → Alike a b := by
    simp [mergeable, Atom.SameTerm, Alike, Like, free, integer, ofLiteral, bare, Atom.any]
  have hliteral : ∀ atom ∈ [integer 2, integer 1], atom.isLiteral = true := by decide
  have hgiven := apply_eq_given idle merge [.integer 2, .integer 1] (by decide +kernel)
  have hbinds : ∀ name atom, merging.find? name = some atom →
      merge.Returned (·.isLiteral = true) atom ∧ atom ∈ mergeParts := by
    intro name atom hfind
    have hmem := NameMap.mem_of_find? hfind
    simp only [merging, List.mem_cons, Prod.mk.injEq, List.not_mem_nil, or_false] at hmem
    rw [hmem.2]
    exact ⟨.applied hliteral hgiven, List.mem_append_right mergeable (.tail _ (.head _))⟩
  have hresult := apply_eq_given idle merge mergeable (by decide +kernel)
  have hok : (idle.rewrite merging (idle.given merge mergeable)).result.isOk = true := by
    decide +kernel
  rcases exists_rewritten hok with ⟨new, hnew, -⟩
  have hvalues : List.Forall₂
      (fun atom value => ∃ new, (idle.rewrite merging atom).result = .ok new ∧
      new.value = value) mergeable (mergeable.map (idle.rewritten merging)) := by
    rw [List.forall₂_map_right_iff, List.forall₂_same]
    have hok : ∀ atom ∈ mergeable, (idle.rewrite merging atom).result.isOk = true := by
      decide +kernel
    exact fun atom hatom => exists_rewritten (hok atom hatom)
  have hother :=
    apply_eq_given idle merge (mergeable.map (idle.rewritten merging)) (by decide +kernel)
  rw [hflat]
  exact ⟨structural_merge, agree_idle, hcollision, hlaws, fun atom hatom =>
    .leaf (hleaf atom hatom),
    fun atom hatom => List.mem_append_left _ hatom, fun _ => halike, hbinds, _, new, _, _, hresult,
    hnew, hvalues, hother, rewrite_apply structural_merge agree_idle hcollision hlaws
      (fun atom hatom => .leaf (hleaf atom hatom))
      (hflat ▸ fun atom hatom => List.mem_append_left _ hatom) (hflat ▸ fun _ => halike) hbinds
      hresult hnew hvalues hother⟩

def native : Engine := ⟨Native.standard, 3, []⟩

def measure (key : Option String) : Operator Atom := ⟨"g", .none, [.free "a" .any], none, key⟩

def measured (key : Option String) : Atom :=
  .application (.operator (measure key) .new) (.sequence ⟨.none, [.free "t" .any]⟩ .new)
    ⟨[("a", .free "t" .any)]⟩ .new

/-- Two variables whose types are not told apart by equality. -/
def twins : List Atom := [.free "x" (measured (some "sum")), .free "x" (measured none)]

def measuring : Bindings := ⟨[("t", .integer 5)]⟩

/-- The operators, the variables, the bound literal, and all their parts, one of those that are not
told apart. -/
def twinTerms : List Atom :=
  [.operator merge .new, .boolean true, .integer 5, .root "BOOLEAN" .common,
    .root "INTEGER" .common, .any, .free "a" .any, .free "t" .any,
    .operator (measure none) .new, .sequence ⟨.none, [.free "t" .any]⟩ .new, measured none,
    .free "x" (measured none)]

def twinParts : List Atom :=
  twinTerms ++ [.operator (measure (some "sum")) .new, measured (some "sum"),
    .free "x" (measured (some "sum"))]

theorem noCollision_twinParts : NoCollision (· ∈ twinParts) := by
  have hnodup : (twinTerms.map fingerprint).Nodup := by decide +kernel
  refine noCollision_of_nodup hnodup fun atom hatom => ?_
  rcases List.mem_append.mp hatom with hatom | hatom
  · exact ⟨atom, hatom, rfl⟩
  · simp only [List.mem_cons, List.not_mem_nil, or_false] at hatom
    rcases hatom with rfl | rfl | rfl
    · exact ⟨.operator (measure none) .new, by simp [twinTerms], rfl⟩
    · exact ⟨measured none, by simp [twinTerms], rfl⟩
    · exact ⟨.free "x" (measured none), by simp [twinTerms], rfl⟩

theorem everywhere_twins : (Atom.operator merge .new).Everywhere (· ∈ twinParts) ∧
    ∀ atom ∈ twins, atom.Everywhere (· ∈ twinParts) := by
  constructor
  · simp [merge, twinParts, twinTerms, Everywhere, PropertiesEverywhere, OptionEverywhere,
      ListEverywhere, boolean, integer, ofLiteral, Literal.rootName, free, Atom.any]
  · simp [twins, measured, measure, twinParts, twinTerms, Everywhere, PropertiesEverywhere,
      OptionEverywhere, ListEverywhere, boolean, integer, ofLiteral, Literal.rootName, free,
      Atom.any, PropertySet.none]

theorem remaining_twins : merge.remaining twins = [.free "x" (measured (some "sum"))] := by
  have hkey : (free "x" (measured none)).key = (free "x" (measured (some "sum"))).key :=
    SameTerm.key rfl
  change distinctFrom [] twins = _
  rw [twins, distinctFrom_cons_of_not_mem List.not_mem_nil,
    distinctFrom_cons_of_mem (by rw [hkey]; exact List.mem_cons_self)]
  rfl

/-- Equal variables may have operators of different evaluation in their types.  If the operator is
idempotent, one of the variables is dropped, but their instances are not equal. -/
theorem rewrite_apply_not_equal :
    merge.Structural ∧ native.natives.Agree id native.natives ∧ NoCollision (· ∈ twinParts) ∧
      (Atom.operator merge .new).Everywhere (· ∈ twinParts) ∧
      (∀ atom ∈ twins, atom.Everywhere (· ∈ twinParts)) ∧
      (∀ atom ∈ twins, merge.Returned (·.isLeaf = true) atom) ∧
      (∀ name atom, measuring.find? name = some atom →
        merge.Returned (·.isLiteral = true) atom ∧ atom ∈ twinParts) ∧
      ∃ result new values other,
        (native.apply (.operator merge .new) (.sequence (.plain twins) .new)).result =
          .ok result ∧
        (native.rewrite measuring result).result = .ok new ∧
        List.Forall₂ (fun atom value => ∃ new,
          (native.rewrite measuring atom).result = .ok new ∧ new.value = value) twins values ∧
        (native.apply (.operator merge .new) (.sequence (.plain values) .new)).result =
          .ok other ∧
        (new.value == other) = false := by
  have hleaf : ∀ atom ∈ twins, atom.isLeaf = true := by decide
  have hbinds : ∀ name atom, measuring.find? name = some atom →
      merge.Returned (·.isLiteral = true) atom ∧ atom ∈ twinParts := by
    intro name atom hfind
    have hmem := NameMap.mem_of_find? hfind
    simp only [measuring, List.mem_cons, Prod.mk.injEq, List.not_mem_nil, or_false] at hmem
    rw [hmem.2]
    exact ⟨.leaf rfl, .tail _ (.tail _ (.head _))⟩
  have hresult := apply_eq_given native merge twins (by decide +kernel)
  have hgives := gives_of_apply rfl rfl hresult
  rw [Operator.flatten_of_isLeaf hleaf, remaining_twins] at hgives
  rw [hgives.eq_argument rfl] at hresult
  have hok : (native.rewrite measuring (.free "x" (measured (some "sum")))).result.isOk = true := by
    decide +kernel
  rcases exists_rewritten hok with ⟨new, hnew, hvalue⟩
  have hvalues : List.Forall₂ (fun atom value => ∃ new,
      (native.rewrite measuring atom).result = .ok new ∧ new.value = value) twins
      (twins.map (native.rewritten measuring)) := by
    rw [List.forall₂_map_right_iff, List.forall₂_same]
    have hok : ∀ atom ∈ twins, (native.rewrite measuring atom).result.isOk = true := by
      decide +kernel
    exact fun atom hatom => exists_rewritten (hok atom hatom)
  have hother := apply_eq_given native merge (twins.map (native.rewritten measuring))
    (by decide +kernel)
  refine ⟨structural_merge, Native.agree_standard, noCollision_twinParts, everywhere_twins.1,
    everywhere_twins.2, fun atom hatom => .leaf (hleaf atom hatom), hbinds, _, new, _, _, hresult,
    hnew, hvalues, hother, ?_⟩
  rw [hvalue]
  decide +kernel

end Engine

end Equational
