import Equational.Proofs.LeafArguments
import Equational.Proofs.SequenceRewriting

/-!
# Requested properties

An argument list that carries properties was normalized under them before an operator sees it.  If
the operator declares all that is requested, it would have done the same to the elements itself:
units and duplicates are dropped twice, and an absorber that stands for the list is the absorber of
the operator.  Only what an operator does not do to its arguments makes a difference: to splice in
nested sequences, to let an absorber win over the identity that it equals, and to drop duplicates
while it is open whether it is associative.
-/

namespace Equational

open Atom

namespace Operator

variable {op : Operator Atom} {requested : Properties} {list other : List Atom} {law : Law}
  {value atom : Atom} {among : Atom → Prop}

/-!
## What is requested is declared

An element that is requested is declared by the operator itself, and a law that is requested to
hold is declared to hold.  So what the request drops as a unit is a unit of the operator, and what
it lets stand for a list is an absorber.
-/

theorem exists_declared (haccepted : op.mismatch? requested = none)
    (hget : requested.get law = some value) :
    ∃ declared, op.properties.effective? law = some declared ∧ (declared == value) = true := by
  have hmem : (law, value) ∈ requested.specified :=
    List.mem_filterMap.mpr ⟨law, by cases law <;> decide, by rw [hget]; rfl⟩
  have hentry : (if op.declared? law == some value then none
      else some (TermError.mismatch op.name law value (op.declared? law))) = none :=
    List.findSome?_eq_none_iff.mp haccepted (law, value) hmem
  split at hentry
  · rename_i hequal
    exact beq_some_iff.mp hequal
  · cases hentry

theorem exists_element (haccepted : op.mismatch? requested = none) (law : Law)
    (hlaw : law.isBoolean = false)
    (hget : requested.get law = some value) :
    ∃ declared, op.properties.get law = some declared ∧ (declared == value) = true := by
  rcases exists_declared haccepted hget with ⟨declared, heffective, hequal⟩
  unfold PropertySet.effective? at heffective
  split at heffective
  · rename_i found hfound
    exact ⟨declared, hfound.trans heffective, hequal⟩
  · rw [hlaw] at heffective
    cases heffective

theorem holds_of_requested (haccepted : op.mismatch? requested = none)
    (hcollision : NoCollision among) (hfalse : among (.boolean false))
    (hop : PropertiesEverywhere among op.properties)
    (hrequested : PropertiesEverywhere among requested) (law : Law)
    (h : PropertySet.holds (requested.get law) = true) :
    PropertySet.holds (op.properties.get law) = true := by
  unfold PropertySet.holds at h ⊢
  cases hget : requested.get law with
  | none =>
      rw [hget] at h
      cases h
  | some value =>
      rw [hget, Option.bind_some] at h
      rcases exists_declared haccepted hget with ⟨declared, heffective, hequal⟩
      have hvalue := PropertySet.among_get hrequested hget
      rcases PropertySet.get_or_false_of_effective heffective with hdeclared | rfl
      · have hsame := hcollision.sameTerm (PropertySet.among_get hop hdeclared) hvalue hequal
        rw [hdeclared, Option.bind_some, hsame.bool?]
        exact h
      · have hsame := hcollision.sameTerm hfalse hvalue hequal
        rw [← hsame.bool?] at h
        cases h

theorem isUnit_of_requested (haccepted : op.mismatch? requested = none)
    (h : (Sequence.sieve requested).isUnit atom = true) : op.isUnit atom = true := by
  rw [Sequence.sieve_of_associative (Sequence.isAssociative_of_sieve (.inr h))] at h
  rcases beq_some_iff.mp h with ⟨identity, hidentity, hequal⟩
  rcases exists_element haccepted .identity rfl hidentity with ⟨declared, hdeclared, hsame⟩
  rw [isUnit, Option.any_eq_true]
  exact ⟨declared, hdeclared, Atom.beq_symm (Atom.beq_trans hsame hequal)⟩

theorem absorbs_of_requested (haccepted : op.mismatch? requested = none)
    (h : (Sequence.sieve requested).absorbs atom = true) :
    requested.absorber.isSome = true ∧ op.absorbs atom = true := by
  rw [Sequence.sieve_of_associative (Sequence.isAssociative_of_sieve (.inl h))] at h
  rcases beq_some_iff.mp h with ⟨absorber, habsorber, hequal⟩
  rcases exists_element haccepted .absorber rfl habsorber with ⟨declared, hdeclared, hsame⟩
  refine ⟨by rw [habsorber]; rfl, ?_⟩
  rw [absorbs, Option.any_eq_true]
  exact ⟨declared, hdeclared, Atom.beq_symm (Atom.beq_trans hsame hequal)⟩

/-!
## What is left of an argument list

What an associative operator does with its arguments depends on what is left of them, and of the
elements that the request has normalized is left what is left of the elements as they were given.
-/

theorem filter_absorber_of_absorbs {absorber : Atom}
    (hdeclared : op.properties.absorber = some absorber)
    (h : ∃ atom ∈ list, op.absorbs atom = true) :
    (op.properties.absorber.filter fun absorber => list.any (· == absorber)) = some absorber := by
  rcases h with ⟨atom, hatom, habsorbs⟩
  rw [absorbs, hdeclared, Option.any_some] at habsorbs
  rw [hdeclared, Option.filter_some, if_pos (List.any_eq_true.mpr ⟨atom, hatom, habsorbs⟩)]

theorem applyAssociative_congr {natives : Natives} {evaluate : GuardEvaluator}
    (h : op.reduction.residue (op.flatten list) = op.reduction.residue (op.flatten other)) :
    op.applyAssociative natives evaluate list = op.applyAssociative natives evaluate other := by
  unfold applyAssociative
  rw [simplify_eq, simplify_eq]
  cases hlist : op.reduction.residue (op.flatten list) with
  | none =>
      rcases residue_eq_none_iff.mp hlist with ⟨atom, hatom, habsorbs⟩
      rcases exists_of_absorbs habsorbs with ⟨absorber, hdeclared, -⟩
      simp only [filter_absorber_of_absorbs hdeclared ⟨atom, hatom, habsorbs⟩,
        filter_absorber_of_absorbs hdeclared (residue_eq_none_iff.mp (h.symm.trans hlist))]
  | some rest =>
      have hother := h.symm.trans hlist
      rw [← (Reduction.residue_eq_some hlist).2] at hother
      have hremaining := residue_eq_remaining (absorbs_of_residue hlist)
      have hremaining' := residue_eq_remaining (absorbs_of_residue (h.symm.trans hlist))
      rw [Option.some.inj ((hremaining.symm.trans h).trans hremaining')]

/-- The elements of an argument list are normal under what it requests: of them is left what is left
of the elements as they were given. -/
theorem residue_flatten_requested (haccepted : op.mismatch? requested = none)
    (hcollision : NoCollision among) (hfalse : among (.boolean false)) {mark : Mark}
    (hop : (Atom.operator op mark).Everywhere among)
    (hrequested : PropertiesEverywhere among requested)
    (hlist : ∀ atom ∈ list, among atom ∧ Sequence.offers requested atom = [atom])
    (hseparate : requested.absorber.isSome = true → Sequence.Separate op.properties) :
    op.reduction.residue (op.flatten (Sequence.normalize requested list)) =
      op.reduction.residue (op.flatten list) := by
  have hlaw : ∀ {atom declared : Atom} (law : Law), atom ∈ list →
      op.properties.get law = some declared → atom.key = declared.key →
        op.pieces atom = [atom] := by
    intro atom declared law hatom hdeclared hkey
    have hsame := hcollision.of_key_eq (hlist atom hatom).1
      (PropertySet.among_get hop.properties hdeclared) hkey
    rw [pieces_of_heads_eq_false]
    rw [heads_congr (.refl op) hsame]
    exact heads_of_get hcollision hop hdeclared
  have hoffers : list.flatMap (Sequence.offers requested) = list := by
    rw [List.flatMap_congr fun atom hatom => (hlist atom hatom).2]
    exact List.flatMap_singleton' list
  have htidy : requested.isAssociative = true → Sequence.Tidy requested list := fun hassociative =>
    Sequence.tidy_of_flat fun atom hatom => by
      rw [← Sequence.offers_of_associative hassociative]
      exact (hlist atom hatom).2
  have hnormal := Sequence.normalize_sieve htidy
  rw [hoffers] at hnormal
  rw [flatten_eq_flatMap, flatten_eq_flatMap]
  rcases hnormal with ⟨absorber, hmem, habsorbs, hnormal⟩ | hresidue
  · -- the absorber of the request is left on both sides, since it is no identity
    rcases absorbs_of_requested haccepted habsorbs with ⟨hsome, habsorbs⟩
    rcases exists_of_absorbs habsorbs with ⟨declared, hdeclared, hkey⟩
    have hunit : op.isUnit absorber = false := by
      rw [isUnit, ← any_beq_comm]
      refine (hseparate hsome).of_absorber ?_
      rw [any_beq_comm]
      exact habsorbs
    have hreduced : op.reduction.absorbs absorber = true := by
      rw [absorbs_reduction, habsorbs, hunit]
      rfl
    have hpieces : absorber ∈ op.pieces absorber := by
      rw [hlaw .absorber hmem hdeclared hkey]
      exact List.mem_singleton_self absorber
    rw [hnormal, List.flatMap_singleton,
      Reduction.residue_eq_none_iff.mpr ⟨absorber, hpieces, hreduced⟩,
      Reduction.residue_eq_none_iff.mpr ⟨absorber, List.mem_flatMap.mpr ⟨absorber, hmem, hpieces⟩,
        hreduced⟩]
  · rw [← (Reduction.residue_eq_some hresidue).2]
    refine Reduction.residue_flatMap_trimmed_of ?_ ?_ ?_
    · intro hidempotent
      rw [Sequence.idempotent_sieve] at hidempotent
      exact holds_of_requested haccepted hcollision hfalse hop.properties hrequested .idempotent
        hidempotent
    · intro _ a ha b hb hkey
      rw [map_key_pieces (hcollision.of_key_eq (hlist a ha).1 (hlist b hb).1 hkey)]
      exact List.Subset.refl _
    · intro atom hatom hunit
      have hunit := isUnit_of_requested haccepted hunit
      rcases exists_of_isUnit hunit with ⟨declared, hdeclared, hkey⟩
      rw [hlaw .identity hatom hdeclared hkey]
      exact residue_of_isUnit hunit

/-!
## Requests that are accepted

What would be spliced in, win or be dropped under the request only is ruled out; all else the
operator does itself.
-/

/-- An operator would do to the elements of a list what the requested properties do to them. -/
structure Anticipates (op : Operator Atom) (requested : Properties) (list : List Atom) : Prop where
  /-- An associative request splices in sequences of its properties, which an operator keeps. -/
  flat : requested.isAssociative = true →
    ∀ s mark, Atom.sequence s mark ∈ list → (s.properties == requested) = false
  /-- An absorber that is requested wins over an identity that it equals, which an operator drops
  first. -/
  separate : requested.absorber.isSome = true → Sequence.Separate op.properties
  /-- An idempotent request drops duplicates, which an operator keeps unless it is associative. -/
  distinct : op.properties.isAssociative = false → requested.isIdempotent = true →
    list.Pairwise fun a b => (a == b) = false

namespace Anticipates

theorem offers_eq (h : op.Anticipates requested list) (hatom : atom ∈ list) :
    Sequence.offers requested atom = [atom] := by
  unfold Sequence.offers
  split
  · rename_i hassociative
    rcases Sequence.pieces_cases requested atom with hpieces | ⟨s, mark, rfl, hequal, -⟩
    · exact hpieces
    · rw [h.flat hassociative s mark hatom] at hequal
      cases hequal
  · rfl

theorem normalize_eq_self (h : op.Anticipates requested list)
    (hassociative : op.properties.isAssociative = false)
    (hrequested : requested.isAssociative = false) : Sequence.normalize requested list = list := by
  rw [Sequence.normalize_of_not_associative hrequested, Sequence.pruned]
  split
  · rename_i hidempotent
    exact distinct_of_pairwise (h.distinct hassociative hidempotent)
  · rfl

end Anticipates

theorem applyWith_sequence {natives : Natives} {evaluate : GuardEvaluator} {s : Sequence Atom}
    {mark : Mark} (haccepted : op.mismatch? s.properties = none) :
    op.applyWith natives evaluate (.sequence s mark) =
      if op.properties.isAssociative then op.applyAssociative natives evaluate s.elements
      else op.dispatch natives evaluate op.parameters s.elements := by
  unfold applyWith
  rw [Plain.arguments_sequence haccepted]
  exact Evaluation.value_andThen _ _

end Operator

namespace Engine

open Operator

/-- A request that is accepted makes no difference: an operator does with a list of arguments that
carries the requested properties what it does with the plain list. -/
theorem apply_requested {engine : Engine} {op : Operator Atom} {requested : Properties}
    {list : List Atom} {among : Atom → Prop} {mark listMark plainMark : Mark}
    (haccepted : op.mismatch? requested = none) (hcollision : NoCollision among)
    (hfalse : among (.boolean false)) (hop : (Atom.operator op mark).Everywhere among)
    (hrequested : PropertiesEverywhere among requested) (hlist : ∀ atom ∈ list, among atom)
    (h : op.Anticipates requested list) :
    engine.apply (.operator op mark) (.sequence (.ofList requested list) listMark) =
      engine.apply (.operator op mark) (.sequence (.plain list) plainMark) := by
  have happlied : ∀ evaluate : GuardEvaluator,
      op.applyWith engine.natives evaluate (.sequence (.ofList requested list) listMark) =
        op.applyWith engine.natives evaluate (.sequence (.plain list) plainMark) := by
    intro evaluate
    rw [applyWith_sequence (s := .ofList requested list) haccepted,
      applyWith_sequence (s := .plain list) (mismatch?_none op), Sequence.elements_plain]
    cases hassociative : op.properties.isAssociative with
    | true =>
        exact applyAssociative_congr (residue_flatten_requested haccepted hcollision hfalse hop
          hrequested (fun atom hatom => ⟨hlist atom hatom, h.offers_eq hatom⟩) h.separate)
    | false =>
        have hopen : requested.isAssociative = false := by
          rw [Bool.eq_false_iff]
          intro hholds
          have hdeclared := holds_of_requested haccepted hcollision hfalse hop.properties
            hrequested .associative hholds
          exact Bool.false_ne_true (hassociative.symm.trans hdeclared)
        rw [if_neg Bool.false_ne_true, if_neg Bool.false_ne_true]
        change op.dispatch _ _ _ (Sequence.normalize requested list) = _
        rw [h.normalize_eq_self hassociative hopen]
  rcases engine with ⟨natives, nesting, place⟩
  cases nesting with
  | zero => rfl
  | succ nesting => exact happlied _

def joining : Properties := ⟨some (.boolean true), none, some (.boolean false), none, none⟩

/-- Arguments with an identity, which is not requested, and with duplicates. -/
def joinable : List Atom := [.boolean true, .integer 0, .boolean false, .boolean true]

def joiningParts : List Atom := .boolean false :: joinParts

theorem apply_requested_joining :
    join.mismatch? joining = none ∧ NoCollision (· ∈ joiningParts) ∧
      .boolean false ∈ joiningParts ∧ (Atom.operator join .new).Everywhere (· ∈ joiningParts) ∧
      PropertiesEverywhere (· ∈ joiningParts) joining ∧ (∀ atom ∈ joinable, atom ∈ joiningParts) ∧
      join.Anticipates joining joinable ∧
      idle.apply (.operator join .new) (.sequence (.ofList joining joinable) .new) =
        idle.apply (.operator join .new) (.sequence (.plain joinable) .new) := by
  have haccepted : join.mismatch? joining = none := by
    refine mismatch?_of_declared fun law value hget => ?_
    have hdeclared : join.declared? law = some value := by
      cases law <;> cases hget <;> rfl
    rw [hdeclared]
    exact Atom.beq_refl value
  have hcollision : NoCollision (· ∈ joiningParts) := by
    have hnodup : (joiningParts.map Atom.fingerprint).Nodup := by decide +kernel
    exact noCollision_of_nodup hnodup fun atom hatom => ⟨atom, hatom, rfl⟩
  have hfalse : .boolean false ∈ joiningParts := by simp [joiningParts]
  have hop : (Atom.operator join .new).Everywhere (· ∈ joiningParts) := by
    simp [join, joiningParts, joinParts, Everywhere, PropertiesEverywhere, OptionEverywhere,
      ListEverywhere, boolean, integer, ofLiteral, Literal.rootName, free, Atom.any]
  have hrequested : PropertiesEverywhere (· ∈ joiningParts) joining := by
    simp [joining, joiningParts, joinParts, Everywhere, PropertiesEverywhere, OptionEverywhere,
      boolean, integer, ofLiteral, Literal.rootName]
  have hlist : ∀ atom ∈ joinable, atom ∈ joiningParts := by
    simp [joinable, joiningParts, joinParts]
  have hanticipates : join.Anticipates joining joinable := by
    refine ⟨fun _ s mark hmem => ?_, fun h => (by cases h), fun h => (by cases h)⟩
    simp [joinable, boolean, integer, ofLiteral] at hmem
  exact ⟨haccepted, hcollision, hfalse, hop, hrequested, hlist, hanticipates,
    apply_requested haccepted hcollision hfalse hop hrequested hlist hanticipates⟩

def nested : Atom := .sequence ⟨join.properties, [.integer 1, .integer 2]⟩ .new

/-- A request for the absorber of an operator, but not for its identity. -/
def vanishing : Properties := ⟨some (.boolean true), none, none, some (.integer 0), none⟩

/-- An operator that is idempotent, if it turns out to be associative. -/
def undecided : Operator Atom :=
  ⟨"both", ⟨some (.free "a" .any), none, some (.boolean true), none, none⟩,
    [.free "x" .any, .free "y" .any], none, none⟩

theorem exists_apart {x y : Except TermError Atom} (atom : Atom)
    (hx : (x.toOption.any (· != atom)) = true) (hy : (y.toOption.any (· == atom)) = true) :
    ∃ a b, x = .ok a ∧ y = .ok b ∧ (a == b) = false := by
  rcases exists_result_of_any hx with ⟨a, ha, hne⟩
  rcases exists_result_of_any hy with ⟨b, hb, hequal⟩
  refine ⟨a, b, ha, hb, ?_⟩
  rw [Bool.eq_false_iff]
  intro h
  rw [bne, Atom.beq_trans h hequal] at hne
  cases hne

/-- A nested sequence of the requested properties is spliced in, which the operator does not do; an
absorber that is the identity stands for the list before the operator could drop it; and equal
arguments of an operator that need not be associative become one. -/
theorem apply_not_requested :
    (join.native = none ∧ join.mismatch? join.properties = none ∧ ∃ requested plain,
      (idle.apply (.operator join .new)
        (.sequence (.ofList join.properties [nested]) .new)).result =
        .ok requested ∧
      (idle.apply (.operator join .new) (.sequence (.plain [nested]) .new)).result = .ok plain ∧
      (requested == plain) = false) ∧
    (vanish.native = none ∧ vanish.mismatch? vanishing = none ∧ ∃ requested plain,
      (idle.apply (.operator vanish .new)
        (.sequence (.ofList vanishing [.integer 0, .integer 1]) .new)).result = .ok requested ∧
      (idle.apply (.operator vanish .new)
        (.sequence (.plain [.integer 0, .integer 1]) .new)).result = .ok plain ∧
      (requested == plain) = false) ∧
    undecided.native = none ∧ undecided.mismatch? undecided.properties = none ∧
      (idle.apply (.operator undecided .new) (.sequence
        (.ofList undecided.properties [.integer 1, .integer 1]) .new)).result.isOk = false ∧
      (idle.apply (.operator undecided .new)
        (.sequence (.plain [.integer 1, .integer 1]) .new)).result.isOk = true := by
  have hvanishing : vanish.mismatch? vanishing = none := by
    refine mismatch?_of_declared fun law value hget => ?_
    have hdeclared : vanish.declared? law = some value := by
      cases law <;> cases hget <;> rfl
    rw [hdeclared]
    exact Atom.beq_refl value
  refine ⟨⟨rfl, mismatch?_properties join, ?_⟩, ⟨rfl, hvanishing, ?_⟩, rfl,
    mismatch?_properties undecided, by decide +kernel, by decide +kernel⟩
  · exact exists_apart nested (by decide +kernel) (by decide +kernel)
  · exact exists_apart (.integer 1) (by decide +kernel) (by decide +kernel)

end Engine

end Equational
