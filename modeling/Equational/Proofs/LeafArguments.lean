import Equational.Proofs.Regrouping

/-!
# Leaves under an operator

An operator without evaluation is applied to literals and variables, or to what
it gave for such.  An associative operator gives a leaf again, or an
application to leaves; either way it contributes the leaves that are left, and
putting what it gave into a sequence of its laws first loses none of them.
-/

namespace Equational

open Atom

/-!
## Literals and variables
-/

def Atom.isLeaf (atom : Atom) : Bool := atom.isLiteral || atom.isFreeVar

/-- An operator without evaluation whose laws are given by literals, its absorber and its identity
by different ones. -/
structure Operator.Structural (op : Operator Atom) : Prop where
  native : op.native = none
  legal : op.properties.checked = .ok op.properties
  constant : op.properties.isConstant = true
  absorber : ∀ atom, op.properties.absorber = some atom → atom.isLiteral = true
  identity : ∀ atom, op.properties.identity = some atom → atom.isLiteral = true
  separate : Sequence.Separate op.properties

/-- A leaf, or what an operator gives for a list of leaves. -/
inductive Operator.Returned (op : Operator Atom) (leaf : Atom → Prop) : Atom → Prop
  | leaf {atom : Atom} (h : leaf atom) : Returned op leaf atom
  | applied {engine : Engine} {mark listMark : Mark} {list : List Atom} {result : Atom}
      (hlist : ∀ atom ∈ list, leaf atom)
      (h : (engine.apply (.operator op mark) (.sequence (.plain list) listMark)).result =
        .ok result) : Returned op leaf result

namespace Atom

variable {atom : Atom}

theorem isLeaf_of_isLiteral (h : atom.isLiteral = true) : atom.isLeaf = true := by
  rw [isLeaf, h, Bool.true_or]

theorem isLeaf_cases (h : atom.isLeaf = true) :
    (∃ value type mark, atom = literal value type mark) ∨
    ∃ name type guard mark, atom = var name type guard 0 mark := by
  cases atom with
  | literal value type mark => exact .inl ⟨value, type, mark, rfl⟩
  | var name type guard index mark =>
      have hindex : index = 0 := by simpa [isLeaf, isLiteral, isFreeVar] using h
      exact .inr ⟨name, type, guard, mark, by rw [hindex]⟩
  | _ => cases h

theorem isLiteral_of_sameTerm {other : Atom} (h : SameTerm atom other)
    (hother : other.isLiteral = true) : atom.isLiteral = true := by
  cases other with
  | literal value type mark =>
      rcases h.symm.literal with ⟨type', mark', rfl, -⟩
      rfl
  | _ => cases hother

theorem isFreeVar_of_sameTerm {other : Atom} (h : SameTerm atom other)
    (hother : other.isFreeVar = true) : atom.isFreeVar = true := by
  cases other with
  | var name type guard index mark =>
      rcases h.symm.var with ⟨type', guard', mark', rfl, -, -⟩
      exact hother
  | _ => cases hother

theorem depth_of_isLeaf (h : atom.isLeaf = true) : atom.depth = 0 := by
  rcases isLeaf_cases h with ⟨value, type, mark, rfl⟩ | ⟨name, type, guard, mark, rfl⟩
  · simp only [depth]
  · simp only [depth]

end Atom

namespace Operator

variable {op : Operator Atom} {atom : Atom} {list : List Atom}

theorem heads_of_depth (h : atom.depth = 0) : op.heads atom = false := by
  rw [Bool.eq_false_iff]
  intro hheads
  rcases heads_eq_true_iff.mp hheads with ⟨inner, mark, argument, bound, outerMark, rfl, -⟩
  simp [depth] at h

theorem nests_of_depth (h : atom.depth = 0) : op.nests atom = false := by
  cases atom with
  | sequence s mark =>
      cases s
      simp [depth] at h
  | _ => rfl

theorem pieces_of_depth (h : atom.depth = 0) : op.pieces atom = [atom] :=
  pieces_of_heads_eq_false (heads_of_depth h)

theorem pieces_of_isLeaf (h : atom.isLeaf = true) : op.pieces atom = [atom] :=
  pieces_of_depth (depth_of_isLeaf h)

theorem map_key_pieces {f : Option String → Option String} {a b : Atom} (h : Like f a b) :
    (op.pieces a).map key = (op.pieces b).map key :=
  map_key_of_forall₂ (forall₂_flatten rfl (.cons h .nil))

theorem flatten_of_isLeaf (h : ∀ atom ∈ list, atom.isLeaf = true) : op.flatten list = list := by
  rw [flatten_eq_flatMap, List.flatMap_congr fun atom hatom => pieces_of_isLeaf (h atom hatom)]
  exact List.flatMap_singleton' list

namespace Structural

variable (h : op.Structural)
include h

theorem isLiteral_of_get (law : Law) {value : Atom} (hget : op.properties.get law = some value) :
    value.isLiteral = true :=
  PropertySet.isLiteral_of_legal h.legal h.constant h.absorber h.identity hget

theorem heads_of_get (law : Law) {value : Atom} (hget : op.properties.get law = some value) :
    op.heads value = false :=
  heads_of_depth (depth_of_isLeaf (isLeaf_of_isLiteral (h.isLiteral_of_get law hget)))

theorem pieces_of_key_eq (law : Law) {value : Atom} (hget : op.properties.get law = some value)
    (hkey : atom.key = value.key) : op.pieces atom = [atom] := by
  have hdepth : atom.depth = value.depth := congrArg Prod.fst hkey
  exact pieces_of_depth
    (hdepth.trans (depth_of_isLeaf (isLeaf_of_isLiteral (h.isLiteral_of_get law hget))))

end Structural

end Operator

namespace PropertySet

theorem holds_of_mayHold {value : Option Atom} (h : mayHold value = false) :
    holds value = false := by
  cases value with
  | none => rfl
  | some atom =>
      have hfalse : atom.bool? = some false := by simpa [mayHold] using h
      simp [holds, hfalse]

theorem not_idempotent {properties : Properties} (hlegal : properties.checked = .ok properties)
    (hconstant : properties.isConstant = true) (hassociative : properties.isAssociative = false) :
    properties.isIdempotent = false := by
  have hmay : mayHold properties.associative = false := by
    cases hvalue : properties.associative with
    | none => rfl
    | some value =>
        have hget : properties.get .associative = some value := hvalue
        rcases exists_bool_of_legal hlegal hconstant rfl hget with ⟨truth, hbool⟩
        have hnot : holds (some value) = false := hvalue ▸ hassociative
        cases truth with
        | true => simp [holds, hbool] at hnot
        | false => simp [mayHold, hbool]
  apply holds_of_mayHold
  have hlacks := (checks_of_legal hlegal).2
  unfold lacksAssociative? at hlacks
  rw [if_neg (by rw [hmay]; decide)] at hlacks
  split at hlacks
  · cases hlacks
  · rename_i hidempotent
    exact Bool.eq_false_iff.mpr hidempotent

end PropertySet

/-!
## What an associative operator gives for leaves

What is due to leaves is a leaf, or an application to those that are left.  Its pieces are leaves,
and it is due to all that it contributes; so values may be put into a sequence of the laws first.
-/

namespace Operator

variable {op : Operator Atom} {leaf : Atom → Prop} {atom result : Atom} {list : List Atom}

/-- A leaf, or what is due to leaves. -/
inductive Value (op : Operator Atom) (leaf : Atom → Prop) : Atom → Prop
  | leaf {atom : Atom} (h : leaf atom) : Value op leaf atom
  | given {list : List Atom} {result : Atom} (hlist : ∀ atom ∈ list, leaf atom)
      (h : op.Gives (op.remaining list) result) : Value op leaf result

theorem Value.imp {leaf' : Atom → Prop} (h : op.Value leaf atom)
    (himp : ∀ atom, leaf atom → leaf' atom) : op.Value leaf' atom := by
  cases h with
  | leaf h => exact .leaf (himp atom h)
  | given hlist h => exact .given (fun atom hatom => himp atom (hlist atom hatom)) h

theorem map_key_pieces_of_key_eq {among : Atom → Prop} (hcollision : NoCollision among)
    {a b : Atom} (ha : a.isLeaf = true ∨ among a) (hb : b.isLeaf = true ∨ among b)
    (hkey : a.key = b.key) : (op.pieces a).map key = (op.pieces b).map key := by
  have hdepth : a.depth = b.depth := congrArg Prod.fst hkey
  have hleaf : a.depth = 0 → (op.pieces a).map key = (op.pieces b).map key := by
    intro h
    rw [pieces_of_depth h, pieces_of_depth (hdepth.symm.trans h), List.map_singleton,
      List.map_singleton, hkey]
  rcases ha with ha | ha
  · exact hleaf (depth_of_isLeaf ha)
  · rcases hb with hb | hb
    · exact hleaf (hdepth.trans (depth_of_isLeaf hb))
    · exact map_key_pieces (hcollision.of_key_eq ha hb hkey)

theorem Returned.value (hassociative : op.properties.isAssociative = true)
    (hnative : op.native = none) (hleaf : ∀ atom, leaf atom → atom.isLeaf = true)
    (h : op.Returned leaf atom) : op.Value leaf atom := by
  cases h with
  | leaf h => exact .leaf h
  | applied hlist h =>
      have hgives := Engine.gives_of_apply hassociative hnative h
      rw [flatten_of_isLeaf fun atom hatom => hleaf atom (hlist atom hatom)] at hgives
      exact .given hlist hgives

section

variable (hop : op.Structural) (hassociative : op.properties.isAssociative = true)
include hop hassociative

theorem Gives.residue_pieces_of_isLeaf (hlist : ∀ atom ∈ list, atom.isLeaf = true)
    (h : op.Gives (op.remaining list) result) :
    op.reduction.residue (op.pieces result) = op.reduction.residue list :=
  h.residue_pieces hassociative
    (fun atom hatom => heads_of_depth (depth_of_isLeaf (hlist atom hatom)))
    (fun atom hatom => nests_of_depth (depth_of_isLeaf (hlist atom hatom)))
    fun law _ hget => hop.heads_of_get law hget

theorem Gives.cases_of_isLeaf (hlist : ∀ atom ∈ list, atom.isLeaf = true)
    (h : op.Gives (op.remaining list) result) : result.isLeaf = true ∨
      ∃ bound, result = .application (.operator op .new)
        (.sequence ⟨op.properties, op.remaining list⟩ .new) bound .new := by
  cases h with
  | absorber _ _ hdeclared =>
      exact .inl (isLeaf_of_isLiteral (hop.isLiteral_of_get .absorber hdeclared))
  | identity _ hdeclared =>
      exact .inl (isLeaf_of_isLiteral (hop.isLiteral_of_get .identity hdeclared))
  | argument _ hsingle =>
      have hmem : result ∈ op.remaining list := by
        rw [hsingle]
        exact List.mem_singleton_self result
      exact .inl (hlist result (mem_of_mem_remaining hmem).1)
  | application habsorbs _ _ bound =>
      refine .inr ⟨bound, ?_⟩
      rw [assembled, Sequence.ofList, normalize_remaining hassociative habsorbs fun atom hatom =>
        nests_of_depth (depth_of_isLeaf (hlist atom hatom))]

theorem Value.isLeaf_of_mem_pieces (h : op.Value (·.isLeaf = true) atom) :
    (∀ piece ∈ op.pieces atom, piece.isLeaf = true) ∧ atom.sequence? = none := by
  have hleaf : ∀ {atom : Atom}, atom.isLeaf = true →
      (∀ piece ∈ op.pieces atom, piece.isLeaf = true) ∧ atom.sequence? = none := by
    intro atom h
    rw [pieces_of_isLeaf h]
    refine ⟨by simpa using h, ?_⟩
    rcases isLeaf_cases h with ⟨value, type, mark, rfl⟩ | ⟨name, type, guard, mark, rfl⟩
    · rfl
    · rfl
  cases h with
  | leaf h => exact hleaf h
  | given hlist h =>
      rcases h.cases_of_isLeaf hop hassociative hlist with h | ⟨bound, rfl⟩
      · exact hleaf h
      · refine ⟨fun piece hpiece => ?_, rfl⟩
        rw [pieces_applied] at hpiece
        exact hlist piece (mem_of_mem_remaining hpiece).1

theorem isLeaf_of_mem_flatten (hlist : ∀ atom ∈ list, op.Value (·.isLeaf = true) atom)
    {piece : Atom}
    (hpiece : piece ∈ op.flatten list) : piece.isLeaf = true := by
  rw [flatten_eq_flatMap] at hpiece
  rcases List.mem_flatMap.mp hpiece with ⟨atom, hatom, hpiece⟩
  exact ((hlist atom hatom).isLeaf_of_mem_pieces hop hassociative).1 piece hpiece

theorem Value.settled (h : op.Value (·.isLeaf = true) atom) : ∃ list result,
    (∀ leaf ∈ list, leaf.isLeaf = true) ∧ op.Gives (op.remaining list) result ∧
      (result == atom) = true ∧
      op.reduction.residue list = op.reduction.residue (op.pieces atom) := by
  cases h with
  | leaf h =>
      have hlist : ∀ leaf ∈ [atom], leaf.isLeaf = true := by simpa using h
      rw [pieces_of_isLeaf h]
      cases hunit : op.isUnit atom with
      | true =>
          rcases exists_of_isUnit hunit with ⟨identity, hdeclared, hkey⟩
          have hnone : op.remaining [atom] = [] :=
            (Reduction.residue_eq_some (residue_of_isUnit hunit)).2
          exact ⟨[atom], identity, hlist, .identity hnone hdeclared, beq_of_key_eq hkey.symm, rfl⟩
      | false =>
          have hremaining : op.remaining [atom] = [atom] := remaining_singleton hunit
          cases habsorbs : op.absorbs atom with
          | true =>
              rcases exists_of_absorbs habsorbs with ⟨absorber, hdeclared, hkey⟩
              have hmem : atom ∈ op.remaining [atom] := by
                rw [hremaining]
                exact List.mem_singleton_self atom
              exact ⟨[atom], absorber, hlist, .absorber hmem habsorbs hdeclared,
                beq_of_key_eq hkey.symm, rfl⟩
          | false =>
              exact ⟨[atom], atom, hlist, .argument habsorbs hremaining, Atom.beq_refl atom, rfl⟩
  | given hlist h =>
      exact ⟨_, atom, hlist, h, Atom.beq_refl atom,
        (h.residue_pieces_of_isLeaf hop hassociative hlist).symm⟩

theorem normalize_cases_of_value (hlist : ∀ atom ∈ list, op.Value (·.isLeaf = true) atom) :
    (∃ absorber ∈ list, op.absorbs absorber = true ∧
        Sequence.normalize op.properties list = [absorber]) ∨
      Sequence.normalize op.properties list = op.reduction.trimmed list := by
  have hwhole : ∀ atom ∈ list, Sequence.pieces op.properties atom = [atom] := fun atom hatom =>
    Sequence.pieces_of_sequence? ((hlist atom hatom).isLeaf_of_mem_pieces hop hassociative).2
  have hnormal := Sequence.normalize_spec hassociative (Sequence.tidy_of_flat hwhole)
  rw [Sequence.flatten_eq_self hwhole] at hnormal
  rcases hnormal with ⟨absorber, hmem, habsorbs, hnormal⟩ | hresidue
  · refine .inl ⟨absorber, hmem, ?_, hnormal⟩
    rw [absorbs, ← any_beq_comm]
    exact habsorbs
  · rw [← (Reduction.residue_eq_some hresidue).2]
    exact .inr (remaining_eq op list).symm

omit hassociative in
theorem absorber_spec (h : op.absorbs atom = true) :
    op.reduction.absorbs atom = true ∧ op.pieces atom = [atom] := by
  have hunit : op.isUnit atom = false := by
    rw [absorbs, ← any_beq_comm] at h
    rw [isUnit, ← any_beq_comm]
    exact hop.separate.of_absorber h
  rcases exists_of_absorbs h with ⟨declared, hdeclared, hkey⟩
  refine ⟨?_, hop.pieces_of_key_eq .absorber hdeclared hkey⟩
  rw [absorbs_reduction, h, hunit]
  rfl

/-- Values may be put into a sequence of the laws first: nothing is lost that they contribute. -/
theorem residue_flatten_normalize {among : Atom → Prop} (hcollision : NoCollision among)
    (hlist : ∀ atom ∈ list, op.Value (·.isLeaf = true) atom)
    (hamong : ∀ atom ∈ list, atom.isLeaf = true ∨ among atom) :
    Sequence.normalize op.properties list ⊆ list ∧
      op.reduction.residue (op.flatten (Sequence.normalize op.properties list)) =
        op.reduction.residue (op.flatten list) := by
  rcases normalize_cases_of_value hop hassociative hlist with
    ⟨absorber, hmem, habsorbs, hnormal⟩ | htrimmed
  · rcases absorber_spec hop habsorbs with ⟨hreduction, hpieces⟩
    have hall : op.reduction.residue (op.flatten list) = none := by
      rw [Reduction.residue_eq_none_iff, flatten_eq_flatMap]
      refine ⟨absorber, List.mem_flatMap.mpr ⟨absorber, hmem, ?_⟩, hreduction⟩
      rw [hpieces]
      exact List.mem_singleton_self absorber
    have hsingle : op.flatten [absorber] = [absorber] := hpieces
    rw [hnormal, hsingle, Reduction.residue_of_absorbs hreduction, hall]
    exact ⟨by simpa using hmem, rfl⟩
  · rw [htrimmed, flatten_eq_flatMap, flatten_eq_flatMap]
    refine ⟨(op.reduction.trimmed_sublist list).subset, Reduction.residue_flatMap_trimmed ?_ ?_⟩
    · intro _ a ha b hb hkey
      rw [map_key_pieces_of_key_eq hcollision (hamong a ha) (hamong b hb) hkey]
      exact List.Subset.refl _
    · intro a ha hunit
      rcases exists_of_isUnit hunit with ⟨identity, hdeclared, hkey⟩
      rw [hop.pieces_of_key_eq .identity hdeclared hkey]
      exact residue_of_isUnit hunit

end

end Operator

end Equational
