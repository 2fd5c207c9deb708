import Equational.Proofs.Bracketing
import Equational.Proofs.Building
import Equational.Proofs.Substitution

/-!
# Substitution in sequences

A sequence may be normalized before or after variables give way to what they
are bound to.  Normalized before, it has lost duplicates, units and nested
sequences that substitution would have changed, and substitution can bring new
ones about, or make the sequence associative in the first place.  In both
orders the same is left, unless the identity and the absorber become equal.
-/

namespace Equational

open Atom

/-!
## All laws

The normal form is an absorber that some element contributes, or the same is left of it as of what
the elements contribute.  Sequences are equal if equality sees the same left of their elements.
-/

/-- Later duplicates are dropped or not, and nothing absorbs or is dropped otherwise. -/
def Reduction.plain (idempotent : Bool) : Reduction where
  absorbs _ := false
  isUnit _ := false
  idempotent := idempotent
  absorbs_congr _ _ _ := rfl
  isUnit_congr _ _ _ := rfl

theorem Reduction.residue_plain (idempotent : Bool) (list : List Atom) :
    (plain idempotent).residue list = some (if idempotent then distinct list else list) := by
  have hfilter : list.filter (!(plain idempotent).isUnit ·) = list :=
    List.filter_eq_self.mpr fun _ _ => rfl
  rw [residue_of_not_absorbs fun _ _ => rfl, trimmed, hfilter]
  rfl

namespace Sequence

variable {properties : Properties} {list other : List Atom}

/-- What the laws of a property set make of elements.  Without associativity they drop later
duplicates and nothing else. -/
def sieve (properties : Properties) : Reduction :=
  if properties.isAssociative then reduction properties else .plain properties.isIdempotent

/-- What an element contributes to a sequence, which is itself without associativity. -/
def offers (properties : Properties) (atom : Atom) : List Atom :=
  if properties.isAssociative then pieces properties atom else [atom]

theorem sieve_of_associative (h : properties.isAssociative = true) :
    sieve properties = reduction properties :=
  if_pos h

theorem offers_of_associative (h : properties.isAssociative = true) (atom : Atom) :
    offers properties atom = pieces properties atom :=
  if_pos h

theorem offers_of_not_associative (h : properties.isAssociative = false) (atom : Atom) :
    offers properties atom = [atom] :=
  if_neg (by rw [h]; exact Bool.false_ne_true)

theorem idempotent_sieve (properties : Properties) :
    (sieve properties).idempotent = properties.isIdempotent := by
  unfold sieve
  split <;> rfl

theorem isAssociative_of_sieve {atom : Atom} (h : (sieve properties).absorbs atom = true ∨
    (sieve properties).isUnit atom = true) : properties.isAssociative = true := by
  by_contra hassociative
  rw [sieve, if_neg hassociative] at h
  rcases h with h | h
  · cases h
  · cases h

theorem map_key_offers {a b : Atom} (h : Atom.SameTerm a b) :
    (offers properties a).map key = (offers properties b).map key := by
  unfold offers
  split
  · exact map_key_pieces h
  · rw [List.map_singleton, List.map_singleton, h.key]

theorem flatMap_offers (h : properties.isAssociative = true) (list : List Atom) :
    list.flatMap (offers properties) = flatten properties list :=
  List.flatMap_congr fun atom _ => offers_of_associative h atom

theorem flatMap_offers_of_not_associative (h : properties.isAssociative = false)
    (list : List Atom) : list.flatMap (offers properties) = list := by
  rw [List.flatMap_congr fun atom _ => offers_of_not_associative h atom]
  exact List.flatMap_singleton' list

theorem residue_sieve_of_not_associative (h : properties.isAssociative = false)
    (list : List Atom) : (sieve properties).residue list = some (pruned properties list) := by
  rw [sieve, h, if_neg Bool.false_ne_true]
  exact Reduction.residue_plain _ list

/-- The normal form is an absorber that some element contributes, or else what is left of all that
the elements contribute. -/
theorem normalize_sieve (htidy : properties.isAssociative = true → Tidy properties list) :
    (∃ absorber ∈ list.flatMap (offers properties), (sieve properties).absorbs absorber = true ∧
        normalize properties list = [absorber]) ∨
      (sieve properties).residue (list.flatMap (offers properties)) =
        some (normalize properties list) := by
  cases hassociative : properties.isAssociative with
  | true =>
      rw [flatMap_offers hassociative, sieve_of_associative hassociative]
      exact normalize_spec hassociative (htidy hassociative)
  | false =>
      rw [flatMap_offers_of_not_associative hassociative,
        residue_sieve_of_not_associative hassociative, normalize_of_not_associative hassociative]
      exact .inr rfl

theorem normalize_subset_offers (htidy : properties.isAssociative = true → Tidy properties list) :
    normalize properties list ⊆ list.flatMap (offers properties) := by
  rcases normalize_sieve htidy with ⟨absorber, hmem, -, hnormal⟩ | hresidue
  · rw [hnormal]
    exact List.cons_subset.mpr ⟨hmem, List.nil_subset _⟩
  · rw [← (Reduction.residue_eq_some hresidue).2]
    exact (Reduction.trimmed_sublist _ _).subset

theorem beq_of_sieve (htidy : properties.isAssociative = true → Tidy properties list)
    (htidy' : properties.isAssociative = true → Tidy properties other)
    (h : ((sieve properties).residue (list.flatMap (offers properties))).map (List.map key) =
      ((sieve properties).residue (other.flatMap (offers properties))).map (List.map key)) :
    (ofList properties list == ofList properties other) = true := by
  cases hassociative : properties.isAssociative with
  | true =>
      rw [flatMap_offers hassociative, flatMap_offers hassociative,
        sieve_of_associative hassociative] at h
      exact beq_of_map_key_residue hassociative (htidy hassociative) (htidy' hassociative) h
  | false =>
      rw [flatMap_offers_of_not_associative hassociative,
        flatMap_offers_of_not_associative hassociative,
        residue_sieve_of_not_associative hassociative,
        residue_sieve_of_not_associative hassociative] at h
      refine beq_of_map_key rfl ?_
      change (normalize properties list).map key = (normalize properties other).map key
      rw [normalize_of_not_associative hassociative, normalize_of_not_associative hassociative]
      exact Option.some.inj h

end Sequence

/-!
## Rewriting laws

Every law is rewritten on its own.  A law that holds for certain goes on to hold, and one that is
left out stays so.
-/

namespace Atom

variable {binds : Bindings} {properties : Properties}

theorem isInert_of_get (h : isInert (.propertySet properties .new) binds = true) {law : Law}
    {value : Atom} (hget : properties.get law = some value) : value.isInert binds = true := by
  rcases properties with ⟨a, c, i, b, d⟩
  rcases (Bool.or_eq_true _ _).mp h with hempty | hrest
  · rw [isInert, hempty, Bool.true_or]
  have hconstant : propertiesConstant ⟨a, c, i, b, d⟩ = true := ((Bool.and_eq_true _ _).mp hrest).1
  have hindex : propertiesIndex ⟨a, c, i, b, d⟩ = 0 :=
    eq_of_beq ((Bool.and_eq_true _ _).mp hrest).2
  simp only [propertiesConstant, Bool.and_eq_true] at hconstant
  rcases hconstant with ⟨⟨⟨⟨hca, hcc⟩, hci⟩, hcb⟩, hcd⟩
  rcases eq_zero_of_max hindex with ⟨hia, hindex⟩
  rcases eq_zero_of_max hindex with ⟨hic, hindex⟩
  rcases eq_zero_of_max hindex with ⟨hii, hindex⟩
  rcases eq_zero_of_max hindex with ⟨hib, hid⟩
  have hvalue : optionConstant (some value) = true ∧ optionIndex (some value) = 0 := by
    rw [← hget]
    cases law with
    | associative => exact ⟨hca, hia⟩
    | commutative => exact ⟨hcc, hic⟩
    | idempotent => exact ⟨hci, hii⟩
    | absorber => exact ⟨hcb, hib⟩
    | identity => exact ⟨hcd, hid⟩
  have hconstant : value.isConstant = true := hvalue.1
  have hindex : value.bindingIndex = 0 := hvalue.2
  rw [isInert, hconstant, hindex]
  exact Bool.or_true _

theorem isInert_laws {list : List Atom}
    (h : isInert (.sequence ⟨properties, list⟩ .new) binds = true) :
    isInert (.propertySet properties .new) binds = true := by
  simp only [isInert, isConstant, bindingIndex, Bool.or_eq_true, Bool.and_eq_true, beq_iff_eq]
    at h ⊢
  rcases h with hempty | ⟨⟨hconstant, -⟩, hindex⟩
  · exact .inl hempty
  · exact .inr ⟨hconstant, (eq_zero_of_max hindex).2⟩

end Atom

def Engine.RewritesLaws (engine : Engine) (binds : Bindings) (properties value : Properties) :
    Prop :=
  ∃ (place : Place) (new : Rewritten Properties),
    (Atom.rewriteProperties engine.applyAt binds place properties).result = .ok new ∧
      new.value = value

namespace Engine

variable {engine : Engine} {binds : Bindings} {properties value : Properties} {place : Place}

theorem rel_of_rewriteOption {law : Option Atom} {new : Rewritten (Option Atom)}
    (h : (rewriteOption engine.applyAt binds place law).result = .ok new) :
    Option.Rel (engine.RewritesTo binds) law new.value ∧
      (new.changed = false → new.value = law) := by
  cases law with
  | none =>
      cases h
      exact ⟨.none, fun _ => rfl⟩
  | some atom =>
      rw [rewriteOption, Evaluation.result_bind_eq_ok_iff] at h
      rcases h with ⟨newAtom, hatom, h⟩
      cases h
      refine ⟨.some ⟨place, newAtom, hatom, rfl⟩, fun hchanged => ?_⟩
      rw [value_of_not_changed hatom hchanged]

theorem get_of_rewriteProperties {new : Rewritten Properties}
    (h : (Atom.rewriteProperties engine.applyAt binds place properties).result = .ok new) :
    (∀ law, Option.Rel (engine.RewritesTo binds) (properties.get law) (new.value.get law)) ∧
      (new.changed = false → new.value = properties) := by
  rcases properties with ⟨a, c, i, b, d⟩
  rw [Atom.rewriteProperties] at h
  split at h
  · rename_i hinert
    cases h
    refine ⟨fun law => ?_, fun _ => rfl⟩
    cases hget : PropertySet.get ⟨a, c, i, b, d⟩ law with
    | none => exact .none
    | some atom => exact .some (RewritesTo.of_isInert (isInert_of_get hinert hget))
  · simp only [Evaluation.result_bind_eq_ok_iff] at h
    rcases h with ⟨newA, hA, newC, hC, newI, hI, newB, hB, newD, hD, h⟩
    rcases rel_of_rewriteOption hA with ⟨hA, hsameA⟩
    rcases rel_of_rewriteOption hC with ⟨hC, hsameC⟩
    rcases rel_of_rewriteOption hI with ⟨hI, hsameI⟩
    rcases rel_of_rewriteOption hB with ⟨hB, hsameB⟩
    rcases rel_of_rewriteOption hD with ⟨hD, hsameD⟩
    have hlaws : ∀ law, Option.Rel (engine.RewritesTo binds)
        (PropertySet.get ⟨a, c, i, b, d⟩ law)
        (PropertySet.get ⟨newA.value, newC.value, newI.value, newB.value, newD.value⟩ law) := by
      intro law
      cases law with
      | associative => exact hA
      | commutative => exact hC
      | idempotent => exact hI
      | absorber => exact hB
      | identity => exact hD
    split at h
    · rw [Evaluation.result_bind_eq_ok_iff] at h
      rcases h with ⟨legal, hlegal, h⟩
      cases h
      rw [← eq_of_checked (yields_checked legal hlegal)]
      exact ⟨hlaws, fun hchanged => by cases hchanged⟩
    · rename_i hchanged
      simp only [Bool.or_eq_true, not_or, Bool.not_eq_true] at hchanged
      rcases hchanged with ⟨⟨⟨⟨hchangedA, hchangedC⟩, hchangedI⟩, hchangedB⟩, hchangedD⟩
      cases h
      rw [hsameA hchangedA, hsameC hchangedC, hsameI hchangedI, hsameB hchangedB,
        hsameD hchangedD] at hlaws
      exact ⟨hlaws, fun _ => rfl⟩

end Engine

namespace Engine.RewritesLaws

variable {engine : Engine} {binds : Bindings} {properties value other : Properties}

theorem rel (h : engine.RewritesLaws binds properties value) (law : Law) :
    Option.Rel (engine.RewritesTo binds) (properties.get law) (value.get law) := by
  rcases h with ⟨place, new, hnew, rfl⟩
  exact (get_of_rewriteProperties hnew).1 law

theorem exists_get (h : engine.RewritesLaws binds properties value) {law : Law} {atom : Atom}
    (hget : properties.get law = some atom) :
    ∃ atom', value.get law = some atom' ∧ engine.RewritesTo binds atom atom' := by
  have hrel := h.rel law
  rw [hget] at hrel
  cases hvalue : value.get law with
  | none =>
      rw [hvalue] at hrel
      cases hrel
  | some atom' =>
      rw [hvalue] at hrel
      cases hrel with
      | some hrewrites => exact ⟨atom', rfl, hrewrites⟩

theorem holds_get (h : engine.RewritesLaws binds properties value) {law : Law}
    (hholds : PropertySet.holds (properties.get law) = true) :
    PropertySet.holds (value.get law) = true := by
  cases hget : properties.get law with
  | none =>
      rw [hget] at hholds
      cases hholds
  | some atom =>
      rcases h.exists_get hget with ⟨atom', hvalue, hrewrites⟩
      have hliteral : atom.isLiteral = true := by
        rw [hget] at hholds
        cases atom with
        | literal value type mark => rfl
        | _ => cases hholds
      rw [hvalue, hrewrites.eq_of_isLiteral hliteral, ← hget]
      exact hholds

theorem isAssociative (h : engine.RewritesLaws binds properties value)
    (hassociative : properties.isAssociative = true) : value.isAssociative = true :=
  @holds_get _ _ _ _ h .associative hassociative

theorem isIdempotent (h : engine.RewritesLaws binds properties value)
    (hidempotent : properties.isIdempotent = true) : value.isIdempotent = true :=
  @holds_get _ _ _ _ h .idempotent hidempotent

theorem exists_result (h : engine.RewritesLaws binds properties value)
    (hnatives : engine.natives.Agree id engine.natives)
    (hother : properties.bare id = other.bare id) (place : Place) :
    ∃ new : Rewritten Properties,
      (Atom.rewriteProperties engine.applyAt binds place other).result = .ok new ∧
        value.bare id = new.value.bare id := by
  rcases h with ⟨place', new, hnew, rfl⟩
  have hresults := results_rewriteProperties (applyAgree_applyWithin hnatives engine.nesting)
    (rfl : NameMap.Agree id binds binds) place' place properties hother
  change Results _ (Atom.rewriteProperties engine.applyAt binds place' properties).result
    (Atom.rewriteProperties engine.applyAt binds place other).result at hresults
  rw [hnew] at hresults
  generalize (Atom.rewriteProperties engine.applyAt binds place other).result = outcome
    at hresults ⊢
  cases hresults with
  | ok hagree => exact ⟨_, rfl, hagree.value⟩

end Engine.RewritesLaws

/-!
## Rewriting sequences

Wherever laws and elements are rewritten, what they are rewritten to is alike, and so are the
sequences of it.
-/

namespace Engine

variable {engine : Engine} {binds : Bindings} {s : Sequence Atom} {value : Properties}

theorem forall_rewritesTo_of_rewriteSequence {place : Place} {new : Rewritten (Sequence Atom)}
    (h : (Atom.rewriteSequence engine.applyAt binds place s).result = .ok new) :
    ∀ atom ∈ s.elements, ∃ value, engine.RewritesTo binds atom value := by
  rcases s with ⟨properties, elements⟩
  intro atom hatom
  rw [Atom.rewriteSequence] at h
  split at h
  · rename_i hinert
    exact ⟨atom, RewritesTo.of_isInert (isInert_of_mem hinert hatom)⟩
  · simp only [Evaluation.result_bind_eq_ok_iff] at h
    rcases h with ⟨newProperties, -, newElements, helements, -⟩
    rcases exists_of_mem_forall₂ (RewritesTo.forall₂_of_rewriteList helements) hatom with
      ⟨value, -, hvalue⟩
    exact ⟨value, hvalue⟩

theorem RewritesTo.exists_result (hnatives : engine.natives.Agree id engine.natives)
    {atom value : Atom} (h : engine.RewritesTo binds atom value) (place : Place) :
    ∃ new : Rewritten Atom, (rewriteWith engine.applyAt binds place atom).result = .ok new := by
  rcases h with ⟨place', new, hnew, -⟩
  have hresults := results_rewriteWith (applyAgree_applyWithin hnatives engine.nesting)
    (rfl : NameMap.Agree id binds binds) place' place atom (Like.refl atom)
  change Results _ (rewriteWith engine.applyAt binds place' atom).result
    (rewriteWith engine.applyAt binds place atom).result at hresults
  rw [hnew] at hresults
  generalize (rewriteWith engine.applyAt binds place atom).result = outcome at hresults ⊢
  cases hresults with
  | ok _ => exact ⟨_, rfl⟩

theorem exists_rewriteList_of_forall (hnatives : engine.natives.Agree id engine.natives)
    {list : List Atom}
    (h : ∀ atom ∈ list, engine.RewritesTo binds atom (engine.rewritten binds atom))
    (place : Place) :
    ∃ new : Rewritten (List Atom), (rewriteList engine.applyAt binds place list).result = .ok new ∧
      List.Forall₂ (engine.RewritesTo binds) list new.value := by
  have hall : List.Forall₂ (fun atom target => ∀ place, ∃ new : Rewritten Atom,
      (rewriteWith engine.applyAt binds place atom).result = .ok new ∧ True) list list := by
    refine List.forall₂_same.mpr fun atom hatom place => ?_
    rcases (h atom hatom).exists_result hnatives place with ⟨new, hnew⟩
    exact ⟨new, hnew, trivial⟩
  rcases exists_rewriteList (R := fun _ _ => True) hall place with ⟨new, hnew, -⟩
  exact ⟨new, hnew, RewritesTo.forall₂_of_rewriteList hnew⟩

theorem ofList_bare_eq (hnatives : engine.natives.Agree id engine.natives)
    {properties : Properties} {list values : List Atom} (hlaws : value.bare id = properties.bare id)
    (hvalues : List.Forall₂ (engine.RewritesTo binds) list values) :
    (Sequence.ofList properties values).bare id =
      (Sequence.ofList value (list.map (engine.rewritten binds))).bare id := by
  have halike : List.Forall₂ Alike values (list.map (engine.rewritten binds)) := by
    rw [List.forall₂_map_right_iff]
    exact hvalues.flip.imp fun _ atom hrewrites => RewritesTo.alike hnatives (Like.refl atom)
      hrewrites (RewritesTo.rewritten hnatives hrewrites)
  rw [← Sequence.ofList_bare, ← Sequence.ofList_bare, ← hlaws, forall₂_like_iff.mp halike]

/-- A normal sequence is rewritten, at any place, to the sequence of its rewritten laws and
elements. -/
theorem exists_rewriteSequence (hnatives : engine.natives.Agree id engine.natives)
    (hnormal : Sequence.normalize s.properties s.elements = s.elements)
    (hlaws : engine.RewritesLaws binds s.properties value)
    (helements : ∀ atom ∈ s.elements, engine.RewritesTo binds atom (engine.rewritten binds atom))
    (place : Place) :
    ∃ new : Rewritten (Sequence Atom),
      (Atom.rewriteSequence engine.applyAt binds place s).result = .ok new ∧
        (new.changed = false → new.value = s) ∧
        new.value.bare id =
          (Sequence.ofList value (s.elements.map (engine.rewritten binds))).bare id := by
  rcases s with ⟨properties, elements⟩
  have hsame : value.bare id = properties.bare id →
      List.Forall₂ (engine.RewritesTo binds) elements elements →
      (Sequence.mk properties elements).bare id =
        (Sequence.ofList value (elements.map (engine.rewritten binds))).bare id := by
    intro hlaws hvalues
    have hsequence : Sequence.mk properties elements = .ofList properties elements := by
      rw [Sequence.ofList, hnormal]
    rw [hsequence]
    exact ofList_bare_eq hnatives hlaws hvalues
  rw [Atom.rewriteSequence]
  split
  · rename_i hinert
    refine ⟨_, rfl, fun _ => rfl, hsame ?_ ?_⟩
    · rcases hlaws.exists_result hnatives rfl place with ⟨new, hnew, hbare⟩
      rw [rewriteProperties_of_isInert (isInert_laws hinert)] at hnew
      cases hnew
      exact hbare
    · exact List.forall₂_same.mpr fun atom hatom =>
        RewritesTo.of_isInert (isInert_of_mem hinert hatom)
  · rcases hlaws.exists_result hnatives rfl (0 :: place) with ⟨newLaws, hnewLaws, hbare⟩
    rcases exists_rewriteList_of_forall hnatives helements (1 :: place) with
      ⟨newElements, hnewElements, hvalues⟩
    simp only [Evaluation.result_bind_eq_ok_iff]
    cases hchanged : newLaws.changed || newElements.changed with
    | true =>
        refine ⟨⟨.ofList newLaws.value newElements.value, true⟩,
          ⟨newLaws, hnewLaws, newElements, hnewElements, ?_⟩, (fun hfalse => by cases hfalse),
          ofList_bare_eq hnatives hbare hvalues⟩
        rw [hchanged]
        rfl
    | false =>
        rcases Bool.or_eq_false_iff.mp hchanged with ⟨hlawsKept, helementsKept⟩
        rw [(get_of_rewriteProperties hnewLaws).2 hlawsKept] at hbare
        rw [list_value_of_not_changed hnewElements helementsKept] at hvalues
        refine ⟨⟨⟨properties, elements⟩, false⟩,
          ⟨newLaws, hnewLaws, newElements, hnewElements, ?_⟩, fun _ => rfl, hsame hbare hvalues⟩
        rw [hchanged]
        rfl

theorem RewritesTo.alike_sequence (hnatives : engine.natives.Agree id engine.natives) {mark : Mark}
    {atom : Atom} (h : engine.RewritesTo binds (.sequence s mark) atom)
    (hnormal : Sequence.normalize s.properties s.elements = s.elements)
    (hlaws : engine.RewritesLaws binds s.properties value) :
    Alike atom (.sequence (.ofList value (s.elements.map (engine.rewritten binds))) .new) := by
  rcases h with ⟨place, new, hnew, rfl⟩
  rw [rewriteWith, Evaluation.result_bind_eq_ok_iff] at hnew
  rcases hnew with ⟨newSequence, hsequence, hnew⟩
  have helements : ∀ atom ∈ s.elements,
      engine.RewritesTo binds atom (engine.rewritten binds atom) := by
    intro atom hatom
    rcases forall_rewritesTo_of_rewriteSequence hsequence atom hatom with ⟨value, hvalue⟩
    exact RewritesTo.rewritten hnatives hvalue
  rcases exists_rewriteSequence hnatives hnormal hlaws helements place with
    ⟨other, hother, hkept, hbare⟩
  rw [hsequence] at hother
  cases hother
  have halike : Alike new.value (.sequence newSequence.value .new) := by
    split at hnew
    · cases hnew
      exact Like.refl _
    · rename_i hchanged
      cases hnew
      rw [hkept (Bool.eq_false_iff.mpr hchanged)]
      rw [Alike, Like, bare_sequence, bare_sequence]
  refine halike.trans ?_
  rw [Like, bare_sequence, bare_sequence, hbare]

end Engine

/-!
## What both orders leave

What equals a law, absorbs or is dropped as a unit before rewriting does so afterwards.  So a
rewritten element offers what the rewritten elements that it offers do, and of the normal form the
same is left as of the list.
-/

theorem Atom.Alike.sameTerm {a b : Atom} (h : Alike a b) : Atom.SameTerm a b := by
  have hbare : Atom.SameTerm (a.bare id) b := by
    rw [show a.bare id = b.bare id from h]
    exact sameTerm_bare id b
  exact (sameTerm_bare id a).symm.trans hbare

theorem PropertySet.sameTerm_of_bare {properties other : Properties}
    (h : properties.bare id = other.bare id) : properties.SameTerm other := by
  have hbare := congrArg (PropertySet.bare fun _ => Option.none) h
  rwa [PropertySet.bare_bare, PropertySet.bare_bare] at hbare

/-- Laws and elements that can be rewritten.  Those at hand before rewriting are alike if they are
equal, and among those at hand afterwards the hash has no collision. -/
structure Engine.Rewrites (engine : Engine) (binds : Bindings) (properties value : Properties)
    (list : List Atom) (source among : Atom → Prop) : Prop where
  natives : engine.natives.Agree id engine.natives
  laws : engine.RewritesLaws binds properties value
  elements : ∀ atom ∈ list, engine.RewritesTo binds atom (engine.rewritten binds atom)
  alike : ∀ a b, source a → source b → a.fingerprint = b.fingerprint → Alike a b
  sourceLaws : PropertiesEverywhere source properties
  sources : ∀ atom ∈ list, atom.Everywhere source
  normal : ∀ atom ∈ list, atom.IsNormal
  collision : NoCollision among
  amongLaws : PropertiesEverywhere among value
  among : ∀ atom, atom ∈ list ∨ atom ∈ list.flatMap (Sequence.offers properties) →
    (engine.rewritten binds atom).Everywhere among ∧ (engine.rewritten binds atom).IsNormal

namespace Engine.Rewrites

variable {engine : Engine} {binds : Bindings} {properties value : Properties}
  {list part : List Atom} {source among : Atom → Prop} {atom : Atom}
  (h : engine.Rewrites binds properties value list source among)
include h

theorem offers_cases (hatom : atom ∈ list) : Sequence.offers properties atom = [atom] ∨
    properties.isAssociative = true ∧ ∃ s mark, atom = .sequence s mark ∧
      properties.bare id = s.properties.bare id ∧ Sequence.offers properties atom = s.elements := by
  cases hassociative : properties.isAssociative with
  | false => exact .inl (Sequence.offers_of_not_associative hassociative atom)
  | true =>
      rw [Sequence.offers_of_associative hassociative]
      rcases Sequence.pieces_cases properties atom with hpieces | ⟨s, mark, rfl, hequal, hpieces⟩
      · exact .inl hpieces
      · have hlaws := PropertySet.bare_eq_of_beq h.alike (h.sources _ hatom).of_sequence.1
          h.sourceLaws hequal
        exact .inr ⟨rfl, s, mark, rfl, hlaws.symm, hpieces⟩

theorem offered (hatom : atom ∈ list.flatMap (Sequence.offers properties)) :
    engine.RewritesTo binds atom (engine.rewritten binds atom) ∧ atom.Everywhere source := by
  rcases List.mem_flatMap.mp hatom with ⟨element, helement, hoffered⟩
  rcases h.offers_cases helement with hsingle | ⟨-, s, mark, rfl, -, hnested⟩
  · rw [hsingle, List.mem_singleton] at hoffered
    rw [hoffered]
    exact ⟨h.elements element helement, h.sources element helement⟩
  · rw [hnested] at hoffered
    refine ⟨?_, (h.sources _ helement).of_sequence.2 atom hoffered⟩
    rcases h.elements _ helement with ⟨place, new, hnew, -⟩
    rw [rewriteWith, Evaluation.result_bind_eq_ok_iff] at hnew
    rcases hnew with ⟨newSequence, hsequence, -⟩
    rcases forall_rewritesTo_of_rewriteSequence hsequence atom hoffered with ⟨value, hvalue⟩
    exact RewritesTo.rewritten h.natives hvalue

theorem tidy (hpart : ∀ atom ∈ part, atom ∈ list ∨ atom ∈ list.flatMap (Sequence.offers properties))
    (hassociative : value.isAssociative = true) :
    Sequence.Tidy value (part.map (engine.rewritten binds)) := by
  refine Sequence.tidy_of_noCollision hassociative h.collision h.amongLaws ?_ ?_
  · rw [List.forall_mem_map]
    exact fun atom hatom => (h.among atom (hpart atom hatom)).1
  · rw [List.forall_mem_map]
    exact fun atom hatom => (h.among atom (hpart atom hatom)).2

theorem map_key_residue_offers (hatom : atom ∈ list) :
    ((Sequence.sieve value).residue
        (Sequence.offers value (engine.rewritten binds atom))).map (List.map key) =
      ((Sequence.sieve value).residue ((Sequence.offers properties atom).flatMap fun piece =>
        Sequence.offers value (engine.rewritten binds piece))).map (List.map key) := by
  rcases h.offers_cases hatom with hsingle | ⟨hassociative, s, mark, rfl, hbare, hnested⟩
  · rw [hsingle, List.flatMap_singleton]
  · have hassociative' := h.laws.isAssociative hassociative
    have hpart : ∀ piece ∈ s.elements, piece ∈ list ∨
        piece ∈ list.flatMap (Sequence.offers properties) := fun piece hpiece =>
      .inr (List.mem_flatMap.mpr ⟨_, hatom, by rwa [hnested]⟩)
    rcases h.laws.exists_result h.natives hbare [] with ⟨new, hnew, hvalue⟩
    have hlaws : engine.RewritesLaws binds s.properties new.value := ⟨[], new, hnew, rfl⟩
    have halike := (h.elements _ hatom).alike_sequence h.natives
      (isNormal_sequence.mp (h.normal _ hatom)) hlaws
    have hequal : (new.value == value) = true := by
      rw [← @PropertySet.beq_bare id, ← hvalue]
      exact PropertySet.beq_refl _
    have hsame : new.value.SameTerm value := PropertySet.sameTerm_of_bare hvalue.symm
    have hkeys := @Sequence.map_key_pieces value _ _ halike.sameTerm
    rw [Sequence.pieces_sequence hequal, Sequence.ofList, Sequence.normalize_sameTerm hsame]
      at hkeys
    rw [hnested, Sequence.offers_of_associative hassociative',
      Sequence.sieve_of_associative hassociative', Reduction.map_key_residue hkeys,
      Sequence.residue_normalize hassociative' (h.tidy hpart hassociative'), Sequence.flatten,
      List.flatMap_map]
    simp only [Sequence.offers_of_associative hassociative']

theorem pieces_of_declared (hatom : atom ∈ list.flatMap (Sequence.offers properties)) {law : Law}
    (hequal : (properties.get law == some atom) = true) :
    (value.get law == some (engine.rewritten binds atom)) = true ∧
      Sequence.pieces value (engine.rewritten binds atom) = [engine.rewritten binds atom] := by
  rcases beq_some_iff.mp hequal with ⟨declared, hget, hdeclared⟩
  rcases h.laws.exists_get hget with ⟨declared', hget', hrewrites⟩
  rcases h.offered hatom with ⟨hrewritten, hsource⟩
  have halike : Alike declared atom := h.alike declared atom
    (PropertySet.among_get h.sourceLaws hget) hsource.self ((beq_iff _ _).mp hdeclared).2
  have halike' : Alike declared' (engine.rewritten binds atom) :=
    RewritesTo.alike h.natives halike hrewrites hrewritten
  have hequal' : (value.get law == some (engine.rewritten binds atom)) = true :=
    beq_some_iff.mpr ⟨declared', hget', halike'.beq⟩
  refine ⟨hequal', ?_⟩
  have hamong := (h.among atom (.inr hatom)).1
  rcases Sequence.pieces_cases value (engine.rewritten binds atom) with
    hpieces | ⟨s, mark, hsequence, hlaws, -⟩
  · exact hpieces
  · rw [hsequence] at hamong halike'
    have hsame := PropertySet.sameTerm_of_beq h.collision hamong.of_sequence.1 h.amongLaws hlaws
    exact absurd halike'.sameTerm (PropertySet.not_sameTerm_sequence hget' hsame mark)

theorem residue_of_absorbs (hatom : atom ∈ list.flatMap (Sequence.offers properties))
    (habsorbs : (Sequence.sieve properties).absorbs atom = true) :
    (Sequence.sieve value).residue (Sequence.offers value (engine.rewritten binds atom)) =
      none := by
  have hassociative := Sequence.isAssociative_of_sieve (.inl habsorbs)
  have hassociative' := h.laws.isAssociative hassociative
  rw [Sequence.sieve_of_associative hassociative] at habsorbs
  rcases @pieces_of_declared _ _ _ _ _ _ _ _ h hatom .absorber habsorbs with ⟨hequal, hpieces⟩
  rw [Sequence.sieve_of_associative hassociative', Sequence.offers_of_associative hassociative',
    hpieces]
  exact Reduction.residue_of_absorbs hequal

/-- What is dropped as a unit before rewriting is dropped afterwards, unless the identity becomes
the absorber. -/
theorem residue_of_isUnit (hseparate : properties.isAssociative = true →
      (value.identity == value.absorber) = true →
        (properties.identity == properties.absorber) = true)
    (hatom : atom ∈ list.flatMap (Sequence.offers properties))
    (hunit : (Sequence.sieve properties).isUnit atom = true)
    (habsorbs : (Sequence.sieve properties).absorbs atom = false) :
    (Sequence.sieve value).residue (Sequence.offers value (engine.rewritten binds atom)) =
      some [] := by
  have hassociative := Sequence.isAssociative_of_sieve (.inr hunit)
  have hassociative' := h.laws.isAssociative hassociative
  rw [Sequence.sieve_of_associative hassociative] at hunit habsorbs
  rcases @pieces_of_declared _ _ _ _ _ _ _ _ h hatom .identity hunit with ⟨hequal, hpieces⟩
  rw [Sequence.sieve_of_associative hassociative', Sequence.offers_of_associative hassociative',
    hpieces]
  refine Reduction.residue_of_isUnit (Bool.eq_false_iff.mpr fun habsorbs' => ?_) hequal
  rcases beq_some_iff.mp hequal with ⟨identity', hidentity', hkey'⟩
  rcases beq_some_iff.mp habsorbs' with ⟨absorber', habsorber', hkey''⟩
  have hlaws : (value.identity == value.absorber) = true := by
    rw [show value.identity = _ from hidentity', habsorber']
    exact beq_trans hkey' (beq_symm hkey'')
  rcases beq_some_iff.mp hunit with ⟨identity, hidentity, hkey⟩
  have hbefore := hseparate hassociative hlaws
  rw [show properties.identity = _ from hidentity] at hbefore
  cases habsorber : properties.absorber with
  | none =>
      rw [habsorber] at hbefore
      cases hbefore
  | some absorber =>
      rw [habsorber] at hbefore
      have hsame : (absorber == atom) = true := beq_trans (beq_symm hbefore) hkey
      have htrue : (Sequence.reduction properties).absorbs atom = true :=
        beq_some_iff.mpr ⟨absorber, habsorber, hsame⟩
      rw [habsorbs] at htrue
      cases htrue

theorem tidy_sources (hassociative : properties.isAssociative = true) :
    Sequence.Tidy properties list :=
  Sequence.tidy_of_noCollision hassociative
    (fun a b ha hb hequal => Alike.sameTerm (h.alike a b ha hb hequal)) h.sourceLaws h.sources
    h.normal

/-- Rewriting the elements of the normal form and rewriting all elements leave the same. -/
theorem map_key_residue_normalize (hseparate : properties.isAssociative = true →
      (value.identity == value.absorber) = true →
        (properties.identity == properties.absorber) = true) :
    ((Sequence.sieve value).residue ((Sequence.normalize properties list).flatMap fun atom =>
        Sequence.offers value (engine.rewritten binds atom))).map (List.map key) =
      ((Sequence.sieve value).residue (list.flatMap fun atom =>
        Sequence.offers value (engine.rewritten binds atom))).map (List.map key) := by
  have hoffered : ((Sequence.sieve value).residue (list.flatMap fun atom =>
        Sequence.offers value (engine.rewritten binds atom))).map (List.map key) =
      ((Sequence.sieve value).residue ((list.flatMap (Sequence.offers properties)).flatMap
        fun atom => Sequence.offers value (engine.rewritten binds atom))).map (List.map key) := by
    rw [List.flatMap_assoc]
    exact Reduction.map_key_residue_flatMap fun atom hatom => h.map_key_residue_offers hatom
  rw [hoffered]
  rcases Sequence.normalize_sieve h.tidy_sources with ⟨absorber, hmem, habsorbs, hnormal⟩ | hresidue
  · have hnone := h.residue_of_absorbs hmem habsorbs
    rw [hnormal, List.flatMap_singleton, hnone]
    rcases Reduction.residue_eq_none_iff.mp hnone with ⟨piece, hpiece, hpieceAbsorbs⟩
    rw [Reduction.residue_eq_none_iff.mpr
      ⟨piece, List.mem_flatMap.mpr ⟨absorber, hmem, hpiece⟩, hpieceAbsorbs⟩]
  · rcases Reduction.residue_eq_some hresidue with ⟨habsorbs, htrimmed⟩
    rw [← htrimmed]
    refine congrArg (Option.map (List.map key)) (Reduction.residue_flatMap_trimmed_of ?_ ?_ ?_)
    · rw [Sequence.idempotent_sieve, Sequence.idempotent_sieve]
      exact h.laws.isIdempotent
    · intro _ a ha b hb hkey
      rcases h.offered ha with ⟨ha, hsource⟩
      rcases h.offered hb with ⟨hb, hsource'⟩
      have halike : Alike a b := h.alike a b hsource.self hsource'.self (congrArg Prod.snd hkey)
      rw [Sequence.map_key_offers (RewritesTo.alike h.natives halike ha hb).sameTerm]
      exact List.Subset.refl _
    · exact fun a ha hunit => h.residue_of_isUnit hseparate ha hunit (habsorbs a ha)

theorem exists_beq_ofList (hseparate : properties.isAssociative = true →
      (value.identity == value.absorber) = true →
        (properties.identity == properties.absorber) = true) (place : Place) :
    ∃ new : Rewritten (Sequence Atom),
      (Atom.rewriteSequence engine.applyAt binds place (.ofList properties list)).result =
          .ok new ∧
        (new.value == .ofList value (list.map (engine.rewritten binds))) = true := by
  have hsubset := Sequence.normalize_subset_offers h.tidy_sources
  have helements : ∀ atom ∈ (Sequence.ofList properties list).elements,
      engine.RewritesTo binds atom (engine.rewritten binds atom) := fun atom hatom =>
    (h.offered (hsubset hatom)).1
  rcases exists_rewriteSequence h.natives (Sequence.normalize_normalize properties list) h.laws
    helements place with ⟨new, hnew, -, hbare⟩
  refine ⟨new, hnew, ?_⟩
  have halike : Alike (.sequence new.value .new) (.sequence (.ofList value
      ((Sequence.normalize properties list).map (engine.rewritten binds))) .new) := by
    rw [Alike, Like, bare_sequence, bare_sequence, hbare]
    rfl
  refine beq_trans halike.beq (Sequence.beq_of_sieve
    (h.tidy fun atom hatom => .inr (hsubset hatom)) (h.tidy fun atom hatom => .inl hatom) ?_)
  rw [List.flatMap_map, List.flatMap_map]
  exact h.map_key_residue_normalize hseparate

end Engine.Rewrites

/-!
## Rewriting before and after normalization

An identity that comes to be the absorber makes a difference: it is dropped beforehand, but
absorbs afterwards.
-/

namespace Atom

theorem Built.isNormal {atom : Atom} (h : atom.Built) : atom.IsNormal := by
  intro s hs
  cases atom with
  | sequence s' mark =>
      cases hs
      exact h.self.2
  | _ => cases hs

theorem Built.of_mem_offers {properties : Properties} {atom piece : Atom} (h : atom.Built)
    (hpiece : piece ∈ Sequence.offers properties atom) : piece.Built := by
  unfold Sequence.offers at hpiece
  split at hpiece
  · rcases Sequence.pieces_cases properties atom with hpieces | ⟨s, mark, rfl, -, hpieces⟩
    · rw [hpieces, List.mem_singleton] at hpiece
      rwa [hpiece]
    · rw [hpieces] at hpiece
      exact (Everywhere.of_sequence h).2 piece hpiece
  · rw [List.mem_singleton] at hpiece
    rwa [hpiece]

end Atom

namespace Engine

variable {engine : Engine} {binds : Bindings}

theorem built_rewritten (hbuild : engine.natives.Build) (hbinds : binds.All Built) {atom : Atom}
    (h : atom.Built) : (engine.rewritten binds atom).Built := by
  unfold Engine.rewritten
  cases hresult : (engine.rewrite binds atom).result with
  | error error => exact h
  | ok new =>
      exact everywhere_rewriteWith (kept_wellMade (buildsApplied_applyWithin hbuild engine.nesting))
        hbinds atom h engine.place new hresult

/-- A sequence may be normalized before or after variables give way to what they are bound to, and
it is rewritten successfully if its laws and elements are.  Those that are equal have to be alike,
as they are without native evaluations; and if the laws are associative before, an identity and an
absorber must not become equal. -/
theorem rewriteSequence_ofList {properties : Properties} {list values : List Atom}
    {source among : Atom → Prop} {newLaws : Rewritten Properties}
    (hnatives : engine.natives.Agree id engine.natives) (hbuild : engine.natives.Build)
    (hbinds : binds.All Built)
    (hlist : ∀ atom ∈ list, atom.Built)
    (hsource : PropertiesEverywhere source properties ∧ ∀ atom ∈ list, atom.Everywhere source)
    (halike : ∀ a b, source a → source b → a.fingerprint = b.fingerprint → Alike a b)
    (hnewLaws : (engine.rewriteProperties binds properties).result = .ok newLaws)
    (hvalues : List.Forall₂ (fun atom value => ∃ new, (engine.rewrite binds atom).result = .ok new ∧
      new.value = value) list values)
    (hcollision : NoCollision among)
    (hamong : PropertiesEverywhere among newLaws.value ∧ ∀ atom,
      atom ∈ list ∨ atom ∈ list.flatMap (Sequence.offers properties) →
        (engine.rewritten binds atom).Everywhere among)
    (hseparate : properties.isAssociative = true →
      (newLaws.value.identity == newLaws.value.absorber) = true →
        (properties.identity == properties.absorber) = true) :
    ∃ new, (engine.rewriteSequence binds (.ofList properties list)).result = .ok new ∧
      (new.value == .ofList newLaws.value values) = true := by
  have hrewritten : values = list.map (engine.rewritten binds) := by
    refine Eq.symm ?_
    rw [← List.forall₂_eq_eq_eq, List.forall₂_map_left_iff]
    refine hvalues.imp fun atom value ⟨new, hnew, hvalue⟩ => ?_
    rw [Engine.rewritten, hnew]
    exact hvalue
  have hrewrites : engine.Rewrites binds properties newLaws.value list source among :=
    { natives := hnatives
      laws := ⟨engine.place, newLaws, hnewLaws, rfl⟩
      elements := fun atom hatom => by
        rcases exists_of_mem_forall₂ hvalues hatom with ⟨value, -, new, hnew, hvalue⟩
        exact RewritesTo.rewritten hnatives ⟨engine.place, new, hnew, hvalue⟩
      alike := halike
      sourceLaws := hsource.1
      sources := hsource.2
      normal := fun atom hatom => (hlist atom hatom).isNormal
      collision := hcollision
      amongLaws := hamong.1
      among := fun atom hatom => by
        refine ⟨hamong.2 atom hatom, Built.isNormal (built_rewritten hbuild hbinds ?_)⟩
        rcases hatom with hatom | hatom
        · exact hlist atom hatom
        · rcases List.mem_flatMap.mp hatom with ⟨element, helement, hpiece⟩
          exact (hlist element helement).of_mem_offers hpiece }
  rw [hrewritten]
  exact hrewrites.exists_beq_ofList hseparate engine.place

/-- Variables for associativity, the identity and an element, what they are bound to, and the parts
of these. -/
def gatheringParts : List Atom :=
  [.free "a" .any, .free "e" .any, .free "x" .any, .any, .boolean true, .integer 0, .integer 1,
    .integer 2, .root "BOOLEAN" .common, .root "INTEGER" .common]

def gathering : Properties :=
  ⟨some (.free "a" .any), none, some (.boolean true), none, some (.free "e" .any)⟩

/-- Elements of which one is to be a duplicate and another one the identity. -/
def gathered : List Atom := [.free "x" .any, .free "e" .any, .free "x" .any, .integer 2]

def gatheringBinds : Bindings :=
  ((NameMap.empty.insert "a" (.boolean true)).insert "e" (.integer 0)).insert "x" (.integer 1)

theorem nodup_gatheringParts : (gatheringParts.map fingerprint).Nodup := by decide +kernel

theorem rewritten_gathered :
    gathered.map (idle.rewritten gatheringBinds) =
      [.integer 1, .integer 0, .integer 1, .integer 2] :=
  rfl

theorem everywhere_rewritten_gathered : ∀ atom ∈ gathered,
    (idle.rewritten gatheringBinds atom).Everywhere (· ∈ gatheringParts) := by
  rw [← List.forall_mem_map, rewritten_gathered]
  simp [gatheringParts, Everywhere, integer, ofLiteral, Literal.rootName]

theorem rewriteSequence_ofList_gathering :
    ∃ newLaws,
      idle.natives.Agree id idle.natives ∧ idle.natives.Build ∧ gatheringBinds.All Built ∧
      (∀ atom ∈ gathered, atom.Built) ∧
      (PropertiesEverywhere (· ∈ gatheringParts) gathering ∧
        ∀ atom ∈ gathered, atom.Everywhere (· ∈ gatheringParts)) ∧
      (∀ a b, a ∈ gatheringParts → b ∈ gatheringParts → a.fingerprint = b.fingerprint →
        Alike a b) ∧
      (idle.rewriteProperties gatheringBinds gathering).result = .ok newLaws ∧
      List.Forall₂ (fun atom value => ∃ new, (idle.rewrite gatheringBinds atom).result = .ok new ∧
        new.value = value) gathered (gathered.map (idle.rewritten gatheringBinds)) ∧
      NoCollision (· ∈ gatheringParts) ∧
      (PropertiesEverywhere (· ∈ gatheringParts) newLaws.value ∧ ∀ atom,
        atom ∈ gathered ∨ atom ∈ gathered.flatMap (Sequence.offers gathering) →
          (idle.rewritten gatheringBinds atom).Everywhere (· ∈ gatheringParts)) ∧
      (gathering.isAssociative = true →
        (newLaws.value.identity == newLaws.value.absorber) = true →
          (gathering.identity == gathering.absorber) = true) ∧
      ∃ new, (idle.rewriteSequence gatheringBinds (.ofList gathering gathered)).result = .ok new ∧
        (new.value == .ofList newLaws.value
          (gathered.map (idle.rewritten gatheringBinds))) = true := by
  have hinteger : ∀ n, (integer n).Built := fun _ => ⟨trivial, trivial⟩
  have hbinds : gatheringBinds.All Built :=
    ((NameMap.all_empty.insert (built_boolean true)).insert (hinteger 0)).insert (hinteger 1)
  have hlist : ∀ atom ∈ gathered, atom.Built := by
    simp [gathered, Built, Everywhere, OptionEverywhere, WellMade, free, integer, ofLiteral,
      Atom.any]
  have hsource : PropertiesEverywhere (· ∈ gatheringParts) gathering ∧
      ∀ atom ∈ gathered, atom.Everywhere (· ∈ gatheringParts) := by
    simp [gathering, gathered, gatheringParts, Everywhere, PropertiesEverywhere, OptionEverywhere,
      boolean, integer, ofLiteral, Literal.rootName, free, Atom.any]
  have halike : ∀ a b, a ∈ gatheringParts → b ∈ gatheringParts → a.fingerprint = b.fingerprint →
      Alike a b := fun a b ha hb hequal =>
    List.inj_on_of_nodup_map nodup_gatheringParts ha hb hequal ▸ Like.refl a
  have hlaws : (idle.rewriteProperties gatheringBinds gathering).result = .ok
      ⟨⟨some (.boolean true), none, some (.boolean true), none, some (.integer 0)⟩, true⟩ := rfl
  have hvalues : List.Forall₂ (fun atom value => ∃ new,
      (idle.rewrite gatheringBinds atom).result = .ok new ∧ new.value = value) gathered
      (gathered.map (idle.rewritten gatheringBinds)) := by
    rw [List.forall₂_map_right_iff, List.forall₂_same]
    have hok : ∀ atom ∈ gathered, (idle.rewrite gatheringBinds atom).result.isOk = true := by
      decide +kernel
    exact fun atom hatom => exists_rewritten (hok atom hatom)
  have hcollision : NoCollision (· ∈ gatheringParts) :=
    noCollision_of_nodup nodup_gatheringParts fun atom hatom => ⟨atom, hatom, rfl⟩
  have hamong : PropertiesEverywhere (· ∈ gatheringParts)
      ⟨some (.boolean true), none, some (.boolean true), none, some (.integer 0)⟩ ∧ ∀ atom,
        atom ∈ gathered ∨ atom ∈ gathered.flatMap (Sequence.offers gathering) →
          (idle.rewritten gatheringBinds atom).Everywhere (· ∈ gatheringParts) := by
    rw [Sequence.flatMap_offers_of_not_associative rfl]
    refine ⟨?_, fun atom hatom => everywhere_rewritten_gathered atom (or_self_iff.mp hatom)⟩
    simp [gatheringParts, Everywhere, PropertiesEverywhere, OptionEverywhere,
      boolean, integer, ofLiteral, Literal.rootName]
  have hbuild : idle.natives.Build := fun _ _ _ _ h => by cases h
  exact ⟨_, agree_idle, hbuild, hbinds, hlist, hsource, halike, hlaws, hvalues, hcollision, hamong,
    fun h => absurd h Bool.false_ne_true, rewriteSequence_ofList agree_idle hbuild hbinds hlist
      hsource halike hlaws hvalues hcollision hamong fun h => absurd h Bool.false_ne_true⟩

/-- Laws and elements can be rewritten, but a sequence of them is not rewritten to the sequence of
what they are rewritten to. -/
def RewritesApart (engine : Engine) (binds : Bindings) (properties : Properties)
    (list : List Atom) : Prop :=
  ∃ newLaws values new,
    (engine.rewriteProperties binds properties).result = .ok newLaws ∧
    List.Forall₂ (fun atom value => ∃ new, (engine.rewrite binds atom).result = .ok new ∧
      new.value = value) list values ∧
    (engine.rewriteSequence binds (.ofList properties list)).result = .ok new ∧
    (new.value == .ofList newLaws.value values) = false

theorem rewritesApart_of_any {engine : Engine} {binds : Bindings} {properties : Properties}
    {list : List Atom} (hlist : ∀ atom ∈ list, (engine.rewrite binds atom).result.isOk = true)
    (h : ((engine.rewriteProperties binds properties).result.toOption.any fun newLaws =>
      (engine.rewriteSequence binds (.ofList properties list)).result.toOption.any fun new =>
        !(new.value == .ofList newLaws.value (list.map (engine.rewritten binds)))) = true) :
    engine.RewritesApart binds properties list := by
  rcases exists_result_of_any h with ⟨newLaws, hlaws, hrest⟩
  rcases exists_result_of_any hrest with ⟨new, hnew, hne⟩
  refine ⟨newLaws, list.map (engine.rewritten binds), new, hlaws, ?_, hnew, by simpa using hne⟩
  rw [List.forall₂_map_right_iff, List.forall₂_same]
  exact fun atom hatom => exists_rewritten (hlist atom hatom)

def absorbing : Properties :=
  ⟨some (.boolean true), none, none, some (.integer 0), some (.free "e" .any)⟩

def absorbingBinds : Bindings := NameMap.empty.insert "e" (.integer 0)

def measuringLaws : Properties :=
  ⟨some (.boolean true), none, none, none, some (measured (some "sum"))⟩

/-- An application without native evaluation, before and after the variable in it gives way to the
literal, and the parts of it. -/
def measuredTerms : List Atom :=
  [.boolean true, .integer 5, .root "BOOLEAN" .common, .root "INTEGER" .common, .any,
    .free "a" .any, .free "t" .any, .operator (measure none) .new,
    .sequence ⟨.none, [.free "t" .any]⟩ .new, .sequence ⟨.none, [.integer 5]⟩ .new, measured none,
    native.rewritten measuring (measured none)]

def measuredParts : List Atom :=
  measuredTerms ++ [.operator (measure (some "sum")) .new, measured (some "sum")]

theorem noCollision_measuredParts : NoCollision (· ∈ measuredParts) := by
  have hnodup : (measuredTerms.map fingerprint).Nodup := by decide +kernel
  refine noCollision_of_nodup hnodup fun atom hatom => ?_
  rcases List.mem_append.mp hatom with hatom | hatom
  · exact ⟨atom, hatom, rfl⟩
  · simp only [List.mem_cons, List.not_mem_nil, or_false] at hatom
    rcases hatom with rfl | rfl
    · exact ⟨.operator (measure none) .new, by simp [measuredTerms], rfl⟩
    · exact ⟨measured none, by simp [measuredTerms], rfl⟩

theorem rewritesApart_absorbing :
    idle.RewritesApart absorbingBinds absorbing [.free "e" .any, .integer 1] :=
  rewritesApart_of_any (by decide +kernel) (by decide +kernel)

theorem rewritesApart_measuring : native.RewritesApart measuring measuringLaws [measured none] :=
  rewritesApart_of_any (by decide +kernel) (by decide +kernel)

/-- An identity that is to be the absorber is dropped beforehand, but absorbs afterwards; and what
equals an identity with another evaluation is dropped beforehand, but stays afterwards. -/
theorem rewriteSequence_not_ofList :
    (NoCollision (· ∈ gatheringParts) ∧ PropertiesEverywhere (· ∈ gatheringParts) absorbing ∧
      (∀ atom ∈ [free "e" .any, integer 1], atom.Everywhere (· ∈ gatheringParts)) ∧
      idle.RewritesApart absorbingBinds absorbing [.free "e" .any, .integer 1]) ∧
    NoCollision (· ∈ measuredParts) ∧ PropertiesEverywhere (· ∈ measuredParts) measuringLaws ∧
      (measured none).Everywhere (· ∈ measuredParts) ∧
      native.RewritesApart measuring measuringLaws [measured none] := by
  refine ⟨⟨noCollision_of_nodup nodup_gatheringParts fun atom hatom => ⟨atom, hatom, rfl⟩, ?_, ?_,
    rewritesApart_absorbing⟩, noCollision_measuredParts, ?_, ?_, rewritesApart_measuring⟩
  · simp [absorbing, gatheringParts, Everywhere, PropertiesEverywhere, OptionEverywhere,
      boolean, integer, ofLiteral, Literal.rootName, free, Atom.any]
  · simp [gatheringParts, Everywhere, OptionEverywhere, integer, ofLiteral, Literal.rootName,
      free, Atom.any]
  · simp [measuringLaws, measured, measure, measuredParts, measuredTerms, Everywhere,
      PropertiesEverywhere, OptionEverywhere, ListEverywhere, boolean, integer, ofLiteral,
      Literal.rootName, free, Atom.any, PropertySet.none]
  · simp [measured, measure, measuredParts, measuredTerms, Everywhere, PropertiesEverywhere,
      OptionEverywhere, ListEverywhere, boolean, integer, ofLiteral, Literal.rootName, free,
      Atom.any, PropertySet.none]

end Engine

end Equational
