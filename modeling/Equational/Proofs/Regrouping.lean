import Equational.Proofs.Flattening

/-!
# Grouped arguments

An associative operator flattens its arguments by one level, drops units and
duplicates, and gives an absorber, an identity, a single argument or an
application for what is left.  Whatever it gives for some of the arguments, it
contributes to the others what these arguments would have contributed.
-/

namespace Equational

open Atom

theorem Atom.application_beq {head head' argument argument' : Atom} (hhead : (head == head') = true)
    (hargument : (argument == argument') = true) {bound bound' : Bindings} {mark mark' : Mark} :
    (application head argument bound mark == application head' argument' bound' mark') = true := by
  rw [beq_iff] at hhead hargument ⊢
  simp only [depth, fingerprint, hhead.1, hhead.2, hargument.1, hargument.2, and_self]

/-!
## Laws that are applications

Neither absorber nor identity of an operator is one of its applications: a law is not given by an
atom that has the law itself.
-/

theorem PropertySet.not_sameTerm_application {properties : Properties} {law : Law} {value : Atom}
    (hget : properties.get law = some value) {op : Operator Atom}
    (hop : op.properties.SameTerm properties) (mark : Mark) (argument : Atom) (bound : Bindings)
    (outerMark : Mark) :
    ¬Atom.SameTerm value (.application (.operator op mark) argument bound outerMark) := by
  intro hsame
  have hvalue : value.term = .application (.operator (op.bare fun _ => Option.none) .new)
      argument.term .empty .new := by
    rw [← bare_operator]
    exact hsame
  have hlt : sizeOf (op.bare fun _ => Option.none).properties < sizeOf value.term := by
    rw [hvalue]
    rcases op.bare fun _ => Option.none with ⟨name, laws, parameters, resultType, native⟩
    simp only [Atom.application.sizeOf_spec, Atom.operator.sizeOf_spec, Operator.mk.sizeOf_spec]
    omega
  have hproperties : (op.bare fun _ => Option.none).properties =
      properties.bare fun _ => Option.none := hop
  rw [hproperties] at hlt
  exact absurd hlt (Nat.lt_asymm (sizeOf_term_lt_of_get hget))

namespace Operator

variable {op : Operator Atom} {list other : List Atom} {result : Atom}

theorem heads_of_get {among : Atom → Prop} (hcollision : NoCollision among) {mark : Mark}
    (hop : (Atom.operator op mark).Everywhere among) {law : Law} {value : Atom}
    (hget : op.properties.get law = some value) : op.heads value = false := by
  rw [Bool.eq_false_iff]
  intro hheads
  rcases heads_eq_true_iff.mp hheads with ⟨inner, mark', argument, bound, outerMark, rfl, hinner⟩
  have hvalue := optionEverywhere_iff.mp
    (propertiesEverywhere_iff.mp (Everywhere.properties hop) law) _ hget
  have hhead : among (.operator inner mark') := Everywhere.self hvalue.2.1
  rcases (hcollision _ _ hhead hop.self ((beq_iff inner op).mp hinner).2).operator with
    ⟨op', mark'', heq, hsame⟩
  cases heq
  exact PropertySet.not_sameTerm_application hget hsame.properties mark' argument bound
    outerMark rfl

/-!
## What is left of arguments

What is given for arguments contributes to others what the arguments would contribute, since units
and duplicates may be dropped before as well as after.
-/

/-- What the laws of an operator make of arguments.  Units are dropped before an absorber is looked
for. -/
def reduction (op : Operator Atom) : Reduction where
  absorbs atom := op.absorbs atom && !op.isUnit atom
  isUnit := op.isUnit
  idempotent := op.properties.isIdempotent
  absorbs_congr a b hkey := by
    unfold absorbs isUnit
    simp only [beq_eq_key_beq, hkey]
  isUnit_congr a b hkey := by
    unfold isUnit
    simp only [beq_eq_key_beq, hkey]

theorem pieces_applied (s : Sequence Atom) {mark listMark outerMark : Mark} {bound : Bindings} :
    op.pieces (.application (.operator op mark) (.sequence s listMark) bound outerMark) =
      s.elements :=
  pieces_application ((beq_iff op op).mpr ⟨rfl, rfl⟩) mark (.sequence s listMark) bound outerMark

theorem absorbs_reduction (atom : Atom) :
    op.reduction.absorbs atom = (op.absorbs atom && !op.isUnit atom) := rfl

theorem absorbs_of_key_eq {a b : Atom} (hkey : a.key = b.key) : op.absorbs a = op.absorbs b := by
  unfold absorbs
  simp only [beq_eq_key_beq, hkey]

theorem exists_of_absorbs {atom : Atom} (h : op.absorbs atom = true) :
    ∃ absorber, op.properties.absorber = some absorber ∧ atom.key = absorber.key := by
  rw [absorbs, Option.any_eq_true] at h
  rcases h with ⟨absorber, hdeclared, hequal⟩
  exact ⟨absorber, hdeclared, beq_iff_eq.mp hequal⟩

theorem exists_of_isUnit {atom : Atom} (h : op.isUnit atom = true) :
    ∃ identity, op.properties.identity = some identity ∧ atom.key = identity.key := by
  rw [isUnit, Option.any_eq_true] at h
  rcases h with ⟨identity, hdeclared, hequal⟩
  exact ⟨identity, hdeclared, beq_iff_eq.mp hequal⟩

theorem remaining_singleton {atom : Atom} (h : op.isUnit atom = false) :
    op.remaining [atom] = [atom] := by
  unfold remaining Sequence.pruned
  rw [List.filter_cons_of_pos (by rw [h]; rfl)]
  split <;> rfl

theorem residue_of_isUnit {atom : Atom} (h : op.isUnit atom = true) :
    op.reduction.residue [atom] = some [] := by
  refine Reduction.residue_of_isUnit ?_ h
  rw [absorbs_reduction, h, Bool.not_true, Bool.and_false]

theorem residue_eq_none_iff : op.reduction.residue list = none ↔
    ∃ atom ∈ op.remaining list, op.absorbs atom = true := by
  rw [Reduction.residue_eq_none_iff]
  constructor
  · rintro ⟨atom, hatom, habsorbs⟩
    rw [absorbs_reduction, Bool.and_eq_true, Bool.not_eq_true'] at habsorbs
    rcases List.mem_map.mp (@Reduction.key_mem_trimmed op.reduction _ _ hatom habsorbs.2)
      with ⟨other, hother, hkey⟩
    exact ⟨other, hother, (absorbs_of_key_eq hkey).trans habsorbs.1⟩
  · rintro ⟨atom, hatom, habsorbs⟩
    rcases mem_of_mem_remaining hatom with ⟨hmem, hunit⟩
    exact ⟨atom, hmem, by rw [absorbs_reduction, habsorbs, hunit]; rfl⟩

theorem residue_eq_remaining (h : ∀ atom ∈ op.remaining list, op.absorbs atom = false) :
    op.reduction.residue list = some (op.remaining list) := by
  cases hresidue : op.reduction.residue list with
  | none =>
      rcases residue_eq_none_iff.mp hresidue with ⟨atom, hatom, habsorbs⟩
      rw [h atom hatom] at habsorbs
      cases habsorbs
  | some rest => rw [← (Reduction.residue_eq_some hresidue).2]; rfl

theorem absorbs_of_residue {rest : List Atom} (h : op.reduction.residue list = some rest) :
    ∀ atom ∈ op.remaining list, op.absorbs atom = false := by
  intro atom hatom
  rw [Bool.eq_false_iff]
  intro habsorbs
  rw [residue_eq_none_iff.mpr ⟨atom, hatom, habsorbs⟩] at h
  cases h

theorem normalize_remaining (hassociative : op.properties.isAssociative = true)
    (habsorbs : ∀ atom ∈ op.remaining list, op.absorbs atom = false)
    (hnests : ∀ atom ∈ list, op.nests atom = false) :
    Sequence.normalize op.properties (op.remaining list) = op.remaining list := by
  apply Sequence.normalize_of_kept hassociative (Sequence.pruned_pruned _ _)
  intro atom hatom
  rcases mem_of_mem_remaining hatom with ⟨hmem, hunit⟩
  exact kept_of_not_nests (habsorbs atom hatom) hunit (hnests atom hmem)

theorem Gives.residue_pieces (h : op.Gives (op.remaining list) result)
    (hassociative : op.properties.isAssociative = true)
    (hheads : ∀ atom ∈ list, op.heads atom = false)
    (hnests : ∀ atom ∈ list, op.nests atom = false)
    (hlaws : ∀ law value, op.properties.get law = some value → op.heads value = false) :
    op.reduction.residue (op.pieces result) = op.reduction.residue list := by
  cases h with
  | @absorber atom _ hatom habsorbs hdeclared =>
      rw [residue_eq_none_iff.mpr ⟨atom, hatom, habsorbs⟩,
        pieces_of_heads_eq_false (hlaws .absorber result hdeclared)]
      rcases exists_of_absorbs habsorbs with ⟨absorber, hdeclared', hkey⟩
      cases hdeclared.symm.trans hdeclared'
      apply Reduction.residue_of_absorbs
      rw [← op.reduction.absorbs_congr atom result hkey, absorbs_reduction, habsorbs,
        (mem_of_mem_remaining hatom).2]
      rfl
  | identity hnone hdeclared =>
      have hunit : op.isUnit result = true := by
        rw [isUnit, hdeclared]
        exact Atom.beq_refl result
      rw [@residue_eq_remaining op list (by simp [hnone]), hnone,
        pieces_of_heads_eq_false (hlaws .identity result hdeclared)]
      exact residue_of_isUnit hunit
  | argument habsorbs hsingle =>
      have hresult : result ∈ op.remaining list := by
        rw [hsingle]
        exact List.mem_singleton_self result
      have hresidue : op.reduction.residue list = some (op.remaining list) :=
        residue_eq_remaining (by simpa [hsingle] using habsorbs)
      rw [pieces_of_heads_eq_false (hheads result (mem_of_mem_remaining hresult).1), hresidue,
        ← hsingle]
      exact Reduction.residue_of_residue hresidue
  | application habsorbs hlength hidentity bound =>
      have hresidue := residue_eq_remaining habsorbs
      rw [assembled, pieces_applied, Sequence.ofList,
        normalize_remaining hassociative habsorbs hnests, hresidue]
      exact Reduction.residue_of_residue hresidue

/-!
## What is given

What is given depends on what equality sees of the arguments that are left.
-/

theorem Gives.eq_absorber (h : op.Gives list result)
    (habsorbs : ∃ atom ∈ list, op.absorbs atom = true) :
    op.properties.absorber = some result := by
  rcases habsorbs with ⟨atom, hatom, habsorbs⟩
  cases h with
  | absorber _ _ hdeclared => exact hdeclared
  | identity hnone _ =>
      rw [hnone] at hatom
      cases hatom
  | argument hno hsingle =>
      rw [hsingle, List.mem_singleton] at hatom
      rw [← hatom, habsorbs] at hno
      cases hno
  | application hno _ _ _ =>
      rw [hno atom hatom] at habsorbs
      cases habsorbs

theorem Gives.eq_identity (h : op.Gives [] result) {identity : Atom}
    (hdeclared : op.properties.identity = some identity) : result = identity := by
  cases h with
  | absorber hatom _ _ => cases hatom
  | identity _ hdeclared' => exact Option.some.inj (hdeclared'.symm.trans hdeclared)
  | argument _ hsingle => cases hsingle
  | application _ _ hidentity _ =>
      rw [hidentity rfl] at hdeclared
      cases hdeclared

theorem Gives.eq_argument {argument : Atom} (h : op.Gives [argument] result)
    (habsorbs : op.absorbs argument = false) : result = argument := by
  cases h with
  | absorber hatom habsorbs' _ =>
      rw [List.mem_singleton.mp hatom, habsorbs] at habsorbs'
      cases habsorbs'
  | identity hnone _ => cases hnone
  | argument _ hsingle => exact (List.singleton_inj.mp hsingle).symm
  | application _ hlength _ _ => exact absurd rfl hlength

theorem Gives.eq_assembled (h : op.Gives list result)
    (habsorbs : ∀ atom ∈ list, op.absorbs atom = false) (hlength : list.length ≠ 1)
    (hidentity : list = [] → op.properties.identity = none) :
    ∃ bound, result = op.assembled list bound := by
  cases h with
  | absorber hatom habsorbs' _ =>
      rw [habsorbs _ hatom] at habsorbs'
      cases habsorbs'
  | identity hnone hdeclared =>
      rw [hidentity hnone] at hdeclared
      cases hdeclared
  | argument _ hsingle =>
      rw [hsingle] at hlength
      exact absurd rfl hlength
  | application _ _ _ bound => exact ⟨bound, rfl⟩

theorem assembled_beq {bound bound' : Bindings}
    (h : (Sequence.normalize op.properties list).map key =
      (Sequence.normalize op.properties other).map key) :
    (op.assembled list bound == op.assembled other bound') = true := by
  have hequal :
      (Sequence.ofList op.properties list == Sequence.ofList op.properties other) = true :=
    Sequence.beq_of_map_key rfl h
  exact application_beq (Atom.beq_refl (.operator op .new)) hequal

theorem Gives.beq {result' : Atom} (h : op.Gives list result) (h' : op.Gives other result')
    (hkeys : list.map key = other.map key)
    (hnormal : (∀ atom ∈ list, op.absorbs atom = false) →
      (Sequence.normalize op.properties list).map key =
        (Sequence.normalize op.properties other).map key) : (result == result') = true := by
  have habsorbs_other : (∀ atom ∈ list, op.absorbs atom = false) →
      ∀ atom ∈ other, op.absorbs atom = false := by
    intro habsorbs atom hatom
    have hkey := List.mem_map_of_mem (f := key) hatom
    rw [← hkeys] at hkey
    rcases List.mem_map.mp hkey with ⟨a, ha, hkey⟩
    rw [← absorbs_of_key_eq hkey]
    exact habsorbs a ha
  cases h with
  | @absorber atom _ hatom habsorbs hdeclared =>
      have hkey := List.mem_map_of_mem (f := key) hatom
      rw [hkeys] at hkey
      rcases List.mem_map.mp hkey with ⟨a, ha, hkey⟩
      have hdeclared' := h'.eq_absorber ⟨a, ha, (absorbs_of_key_eq hkey).trans habsorbs⟩
      rw [Option.some.inj (hdeclared.symm.trans hdeclared')]
      exact Atom.beq_refl result'
  | identity hnone hdeclared =>
      rw [hnone] at hkeys
      rw [List.map_eq_nil_iff.mp hkeys.symm] at h'
      rw [h'.eq_identity hdeclared]
      exact Atom.beq_refl result
  | argument habsorbs hsingle =>
      rw [hsingle] at hkeys
      rcases List.map_eq_singleton_iff.mp hkeys.symm with ⟨argument, rfl, hkey⟩
      rw [h'.eq_argument ((absorbs_of_key_eq hkey).trans habsorbs)]
      exact beq_of_key_eq hkey.symm
  | application habsorbs hlength hidentity bound =>
      have hlength' : list.length = other.length := by simpa using congrArg List.length hkeys
      rcases h'.eq_assembled (habsorbs_other habsorbs) (hlength' ▸ hlength) (fun hnone =>
        hidentity (List.map_eq_nil_iff.mp (hkeys.trans (by rw [hnone, List.map_nil])))) with
        ⟨bound', rfl⟩
      exact assembled_beq (hnormal habsorbs)

theorem Gives.beq_of_residue {result' : Atom} (h : op.Gives (op.remaining list) result)
    (h' : op.Gives (op.remaining other) result')
    (hkeys : (op.reduction.residue list).map (List.map key) =
      (op.reduction.residue other).map (List.map key))
    (hnormal : (∀ atom ∈ op.remaining list, op.absorbs atom = false) →
      (∀ atom ∈ op.remaining other, op.absorbs atom = false) →
      (Sequence.normalize op.properties (op.remaining list)).map key =
        (Sequence.normalize op.properties (op.remaining other)).map key) :
    (result == result') = true := by
  cases hlist : op.reduction.residue list with
  | none =>
      rw [hlist] at hkeys
      have hdeclared := h.eq_absorber (residue_eq_none_iff.mp hlist)
      have hdeclared' :=
        h'.eq_absorber (residue_eq_none_iff.mp (Option.map_eq_none_iff.mp hkeys.symm))
      rw [Option.some.inj (hdeclared.symm.trans hdeclared')]
      exact Atom.beq_refl result'
  | some rest =>
      cases hother : op.reduction.residue other with
      | none =>
          rw [hlist, hother] at hkeys
          cases hkeys
      | some rest' =>
          have habsorbs := absorbs_of_residue hlist
          have habsorbs' := absorbs_of_residue hother
          rw [residue_eq_remaining habsorbs, residue_eq_remaining habsorbs'] at hkeys
          exact h.beq h' (Option.some.inj hkeys) fun _ => hnormal habsorbs habsorbs'

end Operator

namespace Engine

variable {engine : Engine} {op : Operator Atom} {mark listMark : Mark} {list : List Atom}
  {result : Atom}

/-- An associative operator without evaluation gives what is due to the arguments that are left once
the list is flattened. -/
theorem gives_of_applyAt {place : Place} {s : Sequence Atom}
    (hassociative : op.properties.isAssociative = true) (hnative : op.native = none)
    (hrequest : op.mismatch? s.properties = none)
    (hresult : (engine.applyAt place (.operator op mark) (.sequence s listMark)).result =
      .ok result) : op.Gives (op.remaining (op.flatten s.elements)) result := by
  rcases exists_of_applyAt_ok hresult with ⟨evaluate, happlied⟩
  unfold Operator.applyWith at happlied
  rw [Operator.Plain.arguments_sequence hrequest] at happlied
  change (Evaluation.andThen (Evaluation.value _) _).result = _ at happlied
  rw [Evaluation.value_andThen, hassociative, if_pos rfl] at happlied
  rw [← Operator.simplify_eq]
  exact Operator.gives_of_applyAssociative hnative happlied

theorem gives_of_apply (hassociative : op.properties.isAssociative = true)
    (hnative : op.native = none)
    (hresult : (engine.apply (.operator op mark) (.sequence (.plain list) listMark)).result =
      .ok result) : op.Gives (op.remaining (op.flatten list)) result := by
  have hgives := gives_of_applyAt hassociative hnative (Operator.mismatch?_none op) hresult
  rwa [Sequence.elements_plain] at hgives

/-!
## Grouped arguments give the same

An operator hands back the only argument that flattening leaves.  If this argument is an
application that has an absorber among its arguments, the absorber is not seen again.
-/

def given (engine : Engine) (op : Operator Atom) (list : List Atom) : Atom :=
  (engine.apply (.operator op .new) (.sequence (.plain list) .new)).result.toOption.getD .any

theorem apply_eq_given (engine : Engine) (op : Operator Atom) (list : List Atom)
    (h : (engine.apply (.operator op .new) (.sequence (.plain list) .new)).result.isOk = true) :
    (engine.apply (.operator op .new) (.sequence (.plain list) .new)).result =
      .ok (engine.given op list) := by
  unfold given
  cases hresult : (engine.apply (.operator op .new) (.sequence (.plain list) .new)).result with
  | error error =>
      rw [hresult] at h
      cases h
  | ok result => rfl

theorem apply_eq_of_pieces (engine : Engine) {op : Operator Atom} {outer inner : Atom}
    (hassociative : op.properties.isAssociative = true) (hnative : op.native = none)
    (hpieces : op.pieces outer = [inner]) (hunit : op.isUnit inner = false)
    (habsorbs : op.absorbs inner = false)
    (hok : (engine.apply (.operator op .new)
      (.sequence (.plain [outer]) .new)).result.isOk = true) :
    (engine.apply (.operator op .new) (.sequence (.plain [outer]) .new)).result = .ok inner := by
  have happly := apply_eq_given engine op [outer] hok
  have hgives := gives_of_apply hassociative hnative happly
  change op.Gives (op.remaining (op.pieces outer)) _ at hgives
  rw [hpieces, Operator.remaining_singleton hunit] at hgives
  rw [happly, hgives.eq_argument habsorbs]

/-- Arguments may be grouped: an associative operator without evaluation gives the same for all
arguments and for what it gives for some of them in their place. -/
theorem apply_regrouped {among : Atom → Prop} {front list back : List Atom}
    {innerMark outerMark directMark : Mark} {inner outer direct : Atom}
    (hassociative : op.properties.isAssociative = true)
    (hnative : op.native = none) (hcollision : NoCollision among)
    (hop : (Atom.operator op mark).Everywhere among)
    (hlist : ∀ atom ∈ list, op.nests atom = false ∧ (op.heads atom = true →
      ∀ piece ∈ op.pieces atom, op.heads piece = false ∧ op.nests piece = false))
    (hinner : (engine.apply (.operator op mark) (.sequence (.plain list) innerMark)).result =
      .ok inner)
    (houter : (engine.apply (.operator op mark)
      (.sequence (.plain (front ++ [inner] ++ back)) outerMark)).result = .ok outer)
    (hdirect : (engine.apply (.operator op mark)
      (.sequence (.plain (front ++ list ++ back)) directMark)).result = .ok direct) :
    (outer == direct) = true := by
  have hflat : ∀ piece ∈ op.flatten list, op.heads piece = false ∧ op.nests piece = false := by
    intro piece hpiece
    rw [Operator.flatten_eq_flatMap] at hpiece
    rcases List.mem_flatMap.mp hpiece with ⟨atom, hatom, hpiece⟩
    cases hheads : op.heads atom with
    | true => exact (hlist atom hatom).2 hheads piece hpiece
    | false =>
        rw [Operator.pieces_of_heads_eq_false hheads, List.mem_singleton] at hpiece
        rw [hpiece]
        exact ⟨hheads, (hlist atom hatom).1⟩
  have hpieces := (gives_of_apply hassociative hnative hinner).residue_pieces hassociative
    (fun piece hpiece => (hflat piece hpiece).1) (fun piece hpiece => (hflat piece hpiece).2)
    fun law value hget => Operator.heads_of_get hcollision hop hget
  have hresidue : op.reduction.residue (op.flatten (front ++ [inner] ++ back)) =
      op.reduction.residue (op.flatten (front ++ list ++ back)) := by
    simp only [Operator.flatten_eq_flatMap, List.flatMap_append, List.flatMap_singleton]
      at hpieces ⊢
    exact Reduction.residue_append hpieces _ _
  refine (gives_of_apply hassociative hnative houter).beq_of_residue
    (gives_of_apply hassociative hnative hdirect) (by rw [hresidue]) fun habsorbs habsorbs' => ?_
  rw [Operator.residue_eq_remaining habsorbs, Operator.residue_eq_remaining habsorbs'] at hresidue
  rw [Option.some.inj hresidue]

def joinParts : List Atom :=
  [.operator join .new, .boolean true, .integer 0, .free "a" .any, .root "BOOLEAN" .common,
    .root "INTEGER" .common, .any]

def joined : List Atom := [.integer 0, join.assembled [.integer 2, .integer 1] .empty]

theorem apply_regrouped_joined :
    NoCollision (· ∈ joinParts) ∧ (Atom.operator join .new).Everywhere (· ∈ joinParts) ∧
      (∀ atom ∈ joined, join.nests atom = false ∧ (join.heads atom = true →
        ∀ piece ∈ join.pieces atom, join.heads piece = false ∧ join.nests piece = false)) ∧
      ∃ inner outer direct,
        (idle.apply (.operator join .new) (.sequence (.plain joined) .new)).result = .ok inner ∧
        (idle.apply (.operator join .new) (.sequence (.plain
          ([.integer 1] ++ [inner] ++ [.integer 2])) .new)).result = .ok outer ∧
        (idle.apply (.operator join .new) (.sequence (.plain
          ([.integer 1] ++ joined ++ [.integer 2])) .new)).result = .ok direct ∧
        (outer == direct) = true := by
  have hcollision : NoCollision (· ∈ joinParts) := by
    have hnodup : (joinParts.map fingerprint).Nodup := by decide +kernel
    exact noCollision_of_nodup hnodup fun atom hatom => ⟨atom, hatom, rfl⟩
  have hop : (Atom.operator join .new).Everywhere (· ∈ joinParts) := by
    simp [join, joinParts, Everywhere, PropertiesEverywhere, OptionEverywhere, ListEverywhere,
      boolean, integer, ofLiteral, Literal.rootName, free, Atom.any]
  have hlist : ∀ atom ∈ joined, join.nests atom = false ∧ (join.heads atom = true →
      ∀ piece ∈ join.pieces atom, join.heads piece = false ∧ join.nests piece = false) := by
    decide +kernel
  have hinner := apply_eq_given idle join joined (by decide +kernel)
  have houter := apply_eq_given idle join ([.integer 1] ++ [idle.given join joined] ++ [.integer 2])
    (by decide +kernel)
  have hdirect := apply_eq_given idle join ([.integer 1] ++ joined ++ [.integer 2])
    (by decide +kernel)
  exact ⟨hcollision, hop, hlist, _, _, _, hinner, houter, hdirect,
    apply_regrouped rfl rfl hcollision hop hlist hinner houter hdirect⟩

def clear : Operator Atom :=
  ⟨"+", ⟨some (.boolean true), none, none, some (.integer 0), none⟩, [.free "a" .any], none, none⟩

/-- The absorber in a sequence of the properties of the operator. -/
def covered : Atom := .sequence ⟨clear.properties, [.integer 0]⟩ .new

/-- An application that has such a sequence among its arguments. -/
def covering : Atom :=
  .application (.operator clear .new) (.sequence ⟨.none, [covered, .integer 1]⟩ .new) .empty .new

def coveringParts : List Atom :=
  [.operator clear .new, .boolean true, .integer 0, .free "a" .any, .root "BOOLEAN" .common,
    .root "INTEGER" .common, .any, covering, covered, .integer 1,
    .sequence ⟨.none, [covered, .integer 1]⟩ .new]

/-- The application that has `covering` as its only argument. -/
def enclosing : Atom :=
  .application (.operator clear .new) (.sequence ⟨.none, [covering]⟩ .new) .empty .new

theorem apply_enclosing : (idle.apply (.operator clear .new)
    (.sequence (.plain [enclosing]) .new)).result = .ok covering :=
  idle.apply_eq_of_pieces rfl rfl (Operator.pieces_applied _) rfl (by decide +kernel)
    (by decide +kernel)

/-- An application that the operator gave, as the single argument that it was, may still hide an
absorber, which shows up only when its arguments are grouped. -/
theorem apply_not_regrouped :
    clear.properties.isAssociative = true ∧ clear.native = none ∧
      NoCollision (· ∈ coveringParts) ∧
      (Atom.operator clear .new).Everywhere (· ∈ coveringParts) ∧
      covering.Everywhere (· ∈ coveringParts) ∧ clear.nests covering = false ∧
      (∃ list, (idle.apply (.operator clear .new) (.sequence (.plain list) .new)).result =
        .ok covering) ∧
      (∀ piece ∈ clear.pieces covering, clear.heads piece = false) ∧
      ∃ inner outer direct,
        (idle.apply (.operator clear .new) (.sequence (.plain [covering]) .new)).result =
          .ok inner ∧
        (idle.apply (.operator clear .new) (.sequence (.plain ([] ++ [inner] ++ [])) .new)).result =
          .ok outer ∧
        (idle.apply (.operator clear .new)
          (.sequence (.plain ([] ++ [covering] ++ [])) .new)).result = .ok direct ∧
        (outer == direct) = false := by
  have hcollision : NoCollision (· ∈ coveringParts) := by
    have hnodup : (coveringParts.map fingerprint).Nodup := by decide +kernel
    exact noCollision_of_nodup hnodup fun atom hatom => ⟨atom, hatom, rfl⟩
  have hop : (Atom.operator clear .new).Everywhere (· ∈ coveringParts) := by
    simp [clear, coveringParts, Everywhere, PropertiesEverywhere, OptionEverywhere, ListEverywhere,
      boolean, integer, ofLiteral, Literal.rootName, free, Atom.any]
  have hcovering : covering.Everywhere (· ∈ coveringParts) := by
    have hmem : covering ∈ coveringParts := by simp [coveringParts]
    have hcovered : covered ∈ coveringParts := by simp [coveringParts]
    have hzero : (integer 0).Everywhere (· ∈ coveringParts) :=
      everywhere_integer (by simp [coveringParts]) (by simp [coveringParts])
    have hone : (integer 1).Everywhere (· ∈ coveringParts) :=
      everywhere_integer (by simp [coveringParts]) (by simp [coveringParts])
    exact ⟨hmem, hop, by simp [coveringParts], ⟨trivial, trivial, trivial, trivial, trivial⟩,
      ⟨hcovered, hop.properties, hzero, trivial⟩, hone, trivial⟩
  have hinner := apply_eq_given idle clear [covering] (by decide +kernel)
  have houter := apply_eq_given idle clear ([] ++ [idle.given clear [covering]] ++ [])
    (by decide +kernel)
  refine ⟨rfl, rfl, hcollision, hop, hcovering, by decide +kernel, ⟨_, apply_enclosing⟩,
    by decide +kernel, _, _, _, hinner, houter, hinner, by decide +kernel⟩

end Engine

end Equational
