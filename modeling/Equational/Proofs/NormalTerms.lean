import Equational.Proofs.Composed
import Mathlib.Data.List.Nodup

/-!
# Normal terms

A term is normal if below every associative operator nothing could be flattened
or dropped, and every operator has as many arguments as it takes.  Composed
terms are normal, as long as equality tells the operators apart.
-/

namespace Equational

open Atom

/-!
## The same term
-/

namespace Atom

/-- The term that an atom is, without marks, stored parameters and native evaluations. -/
def term (atom : Atom) : Atom := atom.bare fun _ => none

theorem SameTerm.symm {a b : Atom} (h : SameTerm a b) : SameTerm b a := Like.symm h

@[simp] theorem sameTerm_withMark (mark : Mark) (atom : Atom) :
    SameTerm (atom.withMark mark) atom :=
  bare_withMark _ mark atom

end Atom

def Operator.SameTerm (op other : Operator Atom) : Prop :=
  op.bare (fun _ => none) = other.bare fun _ => none

def PropertySet.SameTerm (properties other : Properties) : Prop :=
  properties.bare (fun _ => Option.none) = other.bare fun _ => Option.none

namespace PropertySet.SameTerm

variable {properties other : Properties}

theorem isAssociative (h : properties.SameTerm other) :
    properties.isAssociative = other.isAssociative := by
  rw [← isAssociative_bare (fun _ => Option.none) properties, h, isAssociative_bare]

theorem isCommutative (h : properties.SameTerm other) :
    properties.isCommutative = other.isCommutative := by
  rw [← isCommutative_bare (fun _ => Option.none) properties, h, isCommutative_bare]

theorem get (h : properties.SameTerm other) (law : Law) :
    (properties.get law).map term = (other.get law).map term := by
  have hget := congrArg (fun p => PropertySet.get p law) h
  simp only [get_bare] at hget
  exact hget

end PropertySet.SameTerm

namespace Atom.SameTerm

/-!
### Parts of the same term
-/

theorem isFree {name : String} {a b : Atom} (h : SameTerm a b) (ha : a.IsFree name) :
    b.IsFree name := by
  rcases ha with ⟨type, mark, rfl, hany⟩
  rcases Like.var h with ⟨type', guard', mark', rfl, htype, hguard⟩
  rw [Option.map_eq_none_iff.mp hguard.symm]
  exact ⟨type', mark', rfl, htype.isAny.symm.trans hany⟩

theorem operator {op : Operator Atom} {mark : Mark} {atom : Atom}
    (h : SameTerm (.operator op mark) atom) :
    ∃ op' mark', atom = .operator op' mark' ∧ op.SameTerm op' :=
  Like.operator h

theorem sequence {s : Sequence Atom} {mark : Mark} {atom : Atom}
    (h : SameTerm (.sequence s mark) atom) :
    ∃ s' mark', atom = .sequence s' mark' ∧ s.properties.SameTerm s'.properties ∧
      s.elements.map term = s'.elements.map term := by
  rcases Like.sequence h with ⟨s', mark', rfl, hs⟩
  exact ⟨s', mark', rfl, congrArg Sequence.properties hs, congrArg Sequence.elements hs⟩

theorem application {head argument atom : Atom} {bound : Bindings} {mark : Mark}
    (h : SameTerm (.application head argument bound mark) atom) :
    ∃ head' argument' bound' mark', atom = .application head' argument' bound' mark' ∧
      SameTerm head head' ∧ SameTerm argument argument' :=
  Like.application h

end Atom.SameTerm

theorem forall₂_of_map_term {list other : List Atom} (h : list.map term = other.map term) :
    List.Forall₂ SameTerm list other :=
  forall₂_like_iff.mpr h

theorem map_term_of_forall₂ {list other : List Atom} (h : List.Forall₂ SameTerm list other) :
    list.map term = other.map term :=
  forall₂_like_iff.mp h

namespace Operator

theorem beq_iff (op other : Operator Atom) :
    (op == other) = true ↔ op.name = other.name ∧ op.fingerprint = other.fingerprint := by
  simp [BEq.beq]

theorem beq_symm {op other : Operator Atom} (h : (op == other) = true) : (other == op) = true := by
  rw [beq_iff] at h ⊢
  exact ⟨h.1.symm, h.2.symm⟩

theorem beq_trans {op other third : Operator Atom} (h : (op == other) = true)
    (hother : (other == third) = true) : (op == third) = true := by
  rw [beq_iff] at h hother ⊢
  exact ⟨h.1.trans hother.1, h.2.trans hother.2⟩

namespace SameTerm

variable {op other : Operator Atom}

theorem refl (op : Operator Atom) : op.SameTerm op := rfl

theorem symm (h : op.SameTerm other) : other.SameTerm op := Eq.symm h

theorem trans {third : Operator Atom} (h : op.SameTerm other) (hother : other.SameTerm third) :
    op.SameTerm third := Eq.trans h hother

theorem name (h : op.SameTerm other) : op.name = other.name := by
  have hname := congrArg Operator.name h
  exact hname

theorem fingerprint (h : op.SameTerm other) : op.fingerprint = other.fingerprint := by
  rw [← fingerprint_bare (fun _ => none) op, h, fingerprint_bare]

theorem beq (h : op.SameTerm other) : (op == other) = true :=
  (beq_iff op other).mpr ⟨h.name, h.fingerprint⟩

theorem properties (h : op.SameTerm other) : op.properties.SameTerm other.properties := by
  have hproperties := congrArg Operator.properties h
  exact hproperties

theorem isAssociative (h : op.SameTerm other) :
    op.properties.isAssociative = other.properties.isAssociative := h.properties.isAssociative

theorem isCommutative (h : op.SameTerm other) :
    op.properties.isCommutative = other.properties.isCommutative := h.properties.isCommutative

theorem parameters (h : op.SameTerm other) :
    op.parameters.map term = other.parameters.map term := by
  have hparameters := congrArg Operator.parameters h
  exact hparameters

theorem length_parameters (h : op.SameTerm other) :
    op.parameters.length = other.parameters.length := by
  have hlength := congrArg List.length h.parameters
  simpa using hlength

theorem resultType (h : op.SameTerm other) :
    op.resultType.map term = other.resultType.map term := by
  have hresultType := congrArg Operator.resultType h
  exact hresultType

theorem accepts {n : Nat} (h : op.SameTerm other) (haccepts : op.Accepts n) :
    other.Accepts n where
  exact hno := by
    rw [← h.length_parameters]
    exact haccepts.exact (h.isAssociative.trans hno)
  enough hyes := by
    rw [← h.length_parameters]
    exact haccepts.enough (h.isAssociative.trans hyes)
  empty hyes hnil := by
    apply haccepts.empty (h.isAssociative.trans hyes)
    rw [← List.length_eq_zero_iff, h.length_parameters, hnil]
    rfl
  several hyes := haccepts.several (h.isAssociative.trans hyes)
  unit hyes hzero := by
    have hnone := haccepts.unit (h.isAssociative.trans hyes) hzero
    have hidentity := h.properties.get .identity
    simp only [PropertySet.get] at hidentity
    rw [hnone, Option.map_none] at hidentity
    exact Option.map_eq_none_iff.mp hidentity.symm

end SameTerm

theorem heads_eq_true_iff {op : Operator Atom} {atom : Atom} :
    op.heads atom = true ↔ ∃ inner mark argument bound outerMark,
      atom = .application (.operator inner mark) argument bound outerMark ∧
        (inner == op) = true := by
  unfold heads
  split
  · rename_i inner mark argument bound outerMark
    constructor
    · intro h
      exact ⟨inner, mark, argument, bound, outerMark, rfl, h⟩
    · rintro ⟨inner', mark', argument', bound', outerMark', heq, h⟩
      cases heq
      exact h
  · rename_i hno
    constructor
    · intro h
      cases h
    · rintro ⟨inner, mark, argument, bound, outerMark, rfl, -⟩
      exact absurd rfl (hno inner mark argument bound outerMark)

theorem heads_of_sameTerm {op other : Operator Atom} (h : op.SameTerm other) {a b : Atom}
    (hab : Atom.SameTerm a b) (ha : op.heads a = true) : other.heads b = true := by
  rcases heads_eq_true_iff.mp ha with ⟨inner, mark, argument, bound, outerMark, rfl, hinner⟩
  rcases hab.application with ⟨head', argument', bound', mark', rfl, hhead, -⟩
  rcases hhead.operator with ⟨inner', mark'', rfl, hsame⟩
  exact heads_eq_true_iff.mpr ⟨inner', mark'', argument', bound', mark', rfl,
    beq_trans (beq_trans (beq_symm hsame.beq) hinner) h.beq⟩

theorem heads_congr {op other : Operator Atom} (h : op.SameTerm other) {a b : Atom}
    (hab : Atom.SameTerm a b) : op.heads a = other.heads b := by
  rw [Bool.eq_iff_iff]
  exact ⟨heads_of_sameTerm h hab, heads_of_sameTerm h.symm hab.symm⟩

theorem any_beq_congr {value other : Option Atom} (h : value.map term = other.map term) {a b : Atom}
    (hab : Atom.SameTerm a b) : value.any (a == ·) = other.any (b == ·) := by
  cases value with
  | none =>
      rw [Option.map_none] at h
      rw [Option.map_eq_none_iff.mp h.symm]
      rfl
  | some atom =>
      rw [Option.map_some] at h
      rcases Option.map_eq_some_iff.mp h.symm with ⟨atom', rfl, hatom⟩
      exact beq_congr hab hatom.symm

theorem isUnit_congr {op other : Operator Atom} (h : op.SameTerm other) {a b : Atom}
    (hab : Atom.SameTerm a b) : op.isUnit a = other.isUnit b :=
  any_beq_congr (h.properties.get .identity) hab

theorem absorbs_congr {op other : Operator Atom} (h : op.SameTerm other) {a b : Atom}
    (hab : Atom.SameTerm a b) : op.absorbs a = other.absorbs b :=
  any_beq_congr (h.properties.get .absorber) hab

/-- An identity or absorber of a plain operator is a literal, so that it is no application. -/
theorem any_beq_application {value : Option Atom}
    (h : ∀ atom, value = some atom → atom.isLiteral = true) (head argument : Atom)
    (bound : Bindings) (mark : Mark) :
    value.any (Atom.application head argument bound mark == ·) = false := by
  cases value with
  | none => rfl
  | some atom =>
      have hliteral := h atom rfl
      cases atom with
      | literal value type literalMark =>
          rw [Option.any_some, Bool.eq_false_iff]
          intro hbeq
          have hdepth := ((Atom.beq_iff _ _).mp hbeq).1
          simp [depth] at hdepth
      | _ => cases hliteral

end Operator

theorem Atom.SameTerm.of_parts {op other : Operator Atom}
    {mark mark' listMark listMark' outerMark outerMark' : Mark} {list list' : List Atom}
    {bound bound' : Bindings} (hop : op.SameTerm other)
    (hlist : List.Forall₂ Atom.SameTerm list list') :
    Atom.SameTerm
      (.application (.operator op mark) (.sequence ⟨op.properties, list⟩ listMark) bound outerMark)
      (.application (.operator other mark') (.sequence ⟨other.properties, list'⟩ listMark') bound'
        outerMark') := by
  have hproperties : op.properties.bare (fun _ => none) = other.properties.bare fun _ => none :=
    hop.properties
  have helements : list.map (Atom.bare fun _ => none) = list'.map (Atom.bare fun _ => none) :=
    map_term_of_forall₂ hlist
  have hhead : op.bare (fun _ => none) = other.bare fun _ => none := hop
  simp only [Atom.SameTerm, Like, bare_application, bare_operator, bare_sequence,
    Sequence.bare, hhead,
    hproperties, helements]

/-!
## Normal terms

What a normal term contributes to a flattened list is normal, and is no application of the
operator.  So an argument list of normal terms that is flat is normal as a sequence, and what a
plain operator gives for normal terms is normal.
-/

variable {signature : Operator Atom → Prop} {sources : List Atom}

/-- Every operator of the signature is plain, and fingerprints tell them apart. -/
structure PlainSignature (signature : Operator Atom → Prop) : Prop where
  plain : ∀ op, signature op → op.Plain
  faithful : ∀ op other, signature op → signature other → op.fingerprint = other.fingerprint →
    op.SameTerm other

/-- Terms below whose operators there is nothing left to flatten or to drop. -/
inductive Normal (signature : Operator Atom → Prop) : Atom → Prop
  | literal (value : Literal) (type : Atom) (mark : Mark) :
      Normal signature (.literal value type mark)
  | var (name : String) (type : Atom) (mark : Mark) (hany : type.isAny = true) :
      Normal signature (.var name type none 0 mark)
  | application {op : Operator Atom} {mark listMark outerMark : Mark} {list : List Atom}
      {bound : Bindings} (hop : signature op) (hlist : ∀ atom ∈ list, Normal signature atom)
      (hflat : op.properties.isAssociative = true → op.Flat list)
      (haccepts : op.Accepts list.length) :
      Normal signature (.application (.operator op mark)
        (.sequence ⟨op.properties, list⟩ listMark) bound outerMark)

namespace Normal

theorem sequence?_eq_none {atom : Atom} (h : Normal signature atom) : atom.sequence? = none := by
  cases h <;> rfl

theorem of_isLiteral {atom : Atom} (h : atom.isLiteral = true) : Normal signature atom := by
  cases atom with
  | literal value type mark => exact literal value type mark
  | _ => cases h

theorem bindingIndex_eq_zero (hsignature : PlainSignature signature) {atom : Atom}
    (h : Normal signature atom) : atom.bindingIndex = 0 := by
  induction h with
  | literal value type mark => rfl
  | var name type mark hany => rfl
  | @application op mark listMark outerMark list bound hop hlist hflat haccepts ih =>
      have hindex : listIndex list = 0 := by
        clear hlist hflat haccepts
        induction list with
        | nil => rfl
        | cons atom rest ihlist =>
            rw [listIndex, ih atom List.mem_cons_self,
              ihlist fun other hother => ih other (List.mem_cons_of_mem _ hother)]
            rfl
      have hproperties : propertiesIndex op.properties = 0 := (hsignature.plain op hop).bindingIndex
      simp only [bindingIndex, hindex, hproperties]
      rfl

theorem of_mem_pieces {op : Operator Atom} {atom piece : Atom} (h : Normal signature atom)
    (hmem : piece ∈ op.pieces atom) : Normal signature piece := by
  cases hheads : op.heads atom with
  | false =>
      rw [Operator.pieces_of_heads_eq_false hheads, List.mem_singleton] at hmem
      rw [hmem]
      exact h
  | true =>
      rcases Operator.heads_eq_true_iff.mp hheads with
        ⟨inner, mark, argument, bound, outerMark, rfl, hinner⟩
      rw [Operator.pieces_application hinner] at hmem
      cases h with
      | application hop hlist hflat haccepts => exact hlist piece hmem

theorem heads_of_mem_pieces (hsignature : PlainSignature signature) {op : Operator Atom}
    (hop : signature op) (hassociative : op.properties.isAssociative = true) {atom piece : Atom}
    (h : Normal signature atom) (hmem : piece ∈ op.pieces atom) : op.heads piece = false := by
  cases hheads : op.heads atom with
  | false =>
      rw [Operator.pieces_of_heads_eq_false hheads, List.mem_singleton] at hmem
      rw [hmem]
      exact hheads
  | true =>
      rcases Operator.heads_eq_true_iff.mp hheads with
        ⟨inner, mark, argument, bound, outerMark, rfl, hinner⟩
      rw [Operator.pieces_application hinner] at hmem
      cases h with
      | application hinnerOp hlist hflat haccepts =>
          have hsame := hsignature.faithful inner op hinnerOp hop
            ((Operator.beq_iff inner op).mp hinner).2
          rw [← Operator.heads_congr hsame (Like.refl piece)]
          exact (hflat (hsame.isAssociative.trans hassociative)).heads piece hmem

end Normal

theorem Operator.any_beq_comm (value : Option Atom) (atom : Atom) :
    (value == some atom) = value.any (atom == ·) := by
  cases value with
  | none => rfl
  | some other =>
      change (other == atom) = (atom == other)
      rw [Bool.eq_iff_iff]
      exact ⟨fun h => Atom.beq_symm h, fun h => Atom.beq_symm h⟩

theorem Sequence.ofList_of_normal {op : Operator Atom} (hop : op.Plain) {list : List Atom}
    (hlist : ∀ atom ∈ list, Normal signature atom)
    (hflat : op.properties.isAssociative = true → op.Flat list) :
    Sequence.ofList op.properties list = ⟨op.properties, list⟩ := by
  rw [Sequence.ofList, Sequence.normalize_eq_self hop.idempotent]
  intro hassociative atom hatom
  have h := hflat hassociative
  refine ⟨(hlist atom hatom).sequence?_eq_none, ?_, ?_⟩
  · rw [Operator.any_beq_comm]
    exact h.absorbs atom hatom
  · rw [Operator.any_beq_comm]
    exact h.units atom hatom

theorem Operator.settled_spec (hsignature : PlainSignature signature) {op : Operator Atom}
    (hop : signature op) {list : List Atom} (hlist : ∀ atom ∈ list, Normal signature atom)
    (habsorbs : op.properties.isAssociative = true →
      ∀ atom ∈ op.settled list, op.absorbs atom = false) :
    (∀ atom ∈ op.settled list, Normal signature atom) ∧
      (op.properties.isAssociative = true → op.Flat (op.settled list)) := by
  unfold settled at habsorbs ⊢
  cases hassociative : op.properties.isAssociative with
  | false => exact ⟨by simpa using hlist, by simp⟩
  | true =>
      simp only [hassociative, if_true] at habsorbs ⊢
      have hmem : ∀ atom ∈ op.simplify list, (∃ source ∈ list, atom ∈ op.pieces source) ∧
          op.isUnit atom = false := by
        intro atom hatom
        rw [simplify_eq_filter (hsignature.plain op hop).idempotent, List.mem_filter,
          flatten_eq_flatMap, List.mem_flatMap] at hatom
        exact ⟨hatom.1, by simpa using hatom.2⟩
      refine ⟨?_, fun _ => ⟨?_, fun atom hatom => (hmem atom hatom).2, habsorbs trivial⟩⟩
      · intro atom hatom
        rcases (hmem atom hatom).1 with ⟨source, hsource, hpiece⟩
        exact (hlist source hsource).of_mem_pieces hpiece
      · intro atom hatom
        rcases (hmem atom hatom).1 with ⟨source, hsource, hpiece⟩
        exact (hlist source hsource).heads_of_mem_pieces hsignature hop hassociative hpiece

theorem Normal.of_applyWith (hsignature : PlainSignature signature) {op : Operator Atom}
    (hop : signature op) {s : Sequence Atom} {mark : Mark} {natives : Natives}
    {evaluate : GuardEvaluator} {result : Atom} (hrequest : op.mismatch? s.properties = none)
    (hlist : ∀ atom ∈ s.elements, Normal signature atom)
    (h : (op.applyWith natives evaluate (.sequence s mark)).result = .ok result) :
    Normal signature result := by
  have hplain := hsignature.plain op hop
  rcases hplain.applyWith_cases hrequest h with
    ⟨hassociative, habsorber | hidentity | hsingle⟩ | ⟨habsorbs, haccepts, bound, rfl⟩
  · exact of_isLiteral (hplain.absorber result habsorber)
  · exact of_isLiteral (hplain.identity result hidentity)
  · rw [Operator.settled, if_pos hassociative,
      Operator.simplify_eq_filter hplain.idempotent, Operator.flatten_eq_flatMap] at hsingle
    have hmem : result ∈ s.elements.flatMap op.pieces :=
      List.mem_of_mem_filter (hsingle ▸ List.mem_singleton.mpr rfl)
    rcases List.mem_flatMap.mp hmem with ⟨source, hsource, hpiece⟩
    exact (hlist source hsource).of_mem_pieces hpiece
  · rcases Operator.settled_spec hsignature hop hlist habsorbs with ⟨hnormal, hflat⟩
    rw [Operator.assembled, Sequence.ofList_of_normal hplain hnormal hflat]
    exact application hop hnormal hflat haccepts

theorem Composed.normal (hsignature : PlainSignature signature) {atom : Atom}
    (h : Composed signature atom) : Normal signature atom := by
  induction h with
  | literal value type mark => exact .literal value type mark
  | var name type mark hany => exact .var name type mark hany
  | apply hop hlist h ih =>
      rcases Engine.exists_of_applyAt_ok h with ⟨evaluate, h⟩
      exact Normal.of_applyWith hsignature hop rfl (by simpa using ih) h

/-!
## Atoms involved in a match

A match of some sources compares nothing but their operators, their arguments and runs of these.
So where the hash has no collision among these, what equality does not tell apart is the same
term.
-/

/-- The atoms that a match of some sources can compare: their operators, their arguments, and
runs of arguments wrapped up. -/
inductive Involved (signature : Operator Atom → Prop) (sources : List Atom) : Atom → Prop
  | source {atom : Atom} (h : atom ∈ sources) : Involved signature sources atom
  | operator {op : Operator Atom} (h : signature op) (mark : Mark) :
      Involved signature sources (.operator op mark)
  | element {head atom : Atom} {s : Sequence Atom} {listMark mark : Mark} {bound : Bindings}
      (h : Involved signature sources (.application head (.sequence s listMark) bound mark))
      (hmem : atom ∈ s.elements) : Involved signature sources atom
  | run {head : Atom} {s : Sequence Atom} {listMark mark : Mark} {bound : Bindings}
      {run : List Atom}
      (h : Involved signature sources (.application head (.sequence s listMark) bound mark))
      (hrun : run.Subperm s.elements) (hlower : 2 ≤ run.length)
      (hupper : run.length < s.elements.length) :
      Involved signature sources ((Wrapper.application head s.properties).wrap run)

theorem plainSignature_of_noCollision
    (hplain : ∀ op, signature op → op.Plain)
    (hcollision : NoCollision (Involved signature sources)) : PlainSignature signature where
  plain := hplain
  faithful op other hop hother hfingerprint := by
    have hsame := hcollision (.operator op .new) (.operator other .new)
      (.operator hop .new) (.operator hother .new) hfingerprint
    rcases hsame.operator with ⟨op', mark', heq, hop'⟩
    cases heq
    exact hop'

/-- A list that is closed under operators and arguments has all atoms that are involved, as long as
no application has more than two arguments. -/
theorem Involved.exists_of_closed {list : List Atom}
    (hsources : ∀ a ∈ sources, ∃ b ∈ list, SameTerm a b)
    (hoperators : ∀ op, signature op → ∀ mark, ∃ b ∈ list, SameTerm (.operator op mark) b)
    (hlist : ∀ head s listMark bound mark,
      Atom.application head (.sequence s listMark) bound mark ∈ list →
        s.elements.length ≤ 2 ∧ s.elements ⊆ list)
    {atom : Atom} (h : Involved signature sources atom) : ∃ b ∈ list, SameTerm atom b := by
  have hparts : ∀ {head s listMark bound mark},
      (∃ b ∈ list, SameTerm (.application head (.sequence s listMark) bound mark) b) →
        ∃ elements : List Atom, elements.length ≤ 2 ∧ elements ⊆ list ∧
          List.Forall₂ SameTerm s.elements elements := by
    rintro head s listMark bound mark ⟨b, hb, hsame⟩
    rcases hsame.application with ⟨head', argument, bound', mark', rfl, -, hargument⟩
    rcases hargument.sequence with ⟨s', listMark', rfl, -, helements⟩
    rcases hlist _ _ _ _ _ hb with ⟨hlength, hsubset⟩
    exact ⟨s'.elements, hlength, hsubset, forall₂_of_map_term helements⟩
  induction h with
  | source h => exact hsources _ h
  | operator h mark => exact hoperators _ h mark
  | element _ hmem ih =>
      rcases hparts ih with ⟨elements, -, hsubset, hall⟩
      rcases exists_of_mem_forall₂ hall hmem with ⟨b, hb, hsame⟩
      exact ⟨b, hsubset hb, hsame⟩
  | run _ hrun hlower hupper ih =>
      rcases hparts ih with ⟨elements, hlength, -, hall⟩
      have hequal := hall.length_eq
      omega

theorem Atom.noCollision_of_nodup {among : Atom → Prop} {list : List Atom}
    (hnodup : (list.map fingerprint).Nodup) (hlist : ∀ a, among a → ∃ b ∈ list, SameTerm a b) :
    NoCollision among := by
  intro a b ha hb hfingerprint
  rcases hlist a ha with ⟨a', ha', hsame⟩
  rcases hlist b hb with ⟨b', hb', hsame'⟩
  have hequal : a'.fingerprint = b'.fingerprint := by
    rw [← ((beq_iff a a').mp hsame.beq).2, hfingerprint, ((beq_iff b b').mp hsame'.beq).2]
  rw [List.inj_on_of_nodup_map hnodup ha' hb' hequal] at hsame
  exact hsame.trans hsame'.symm

/-!
## Sums

The terms of a commutative and associative operator without evaluation.
-/

def Operator.sum : Operator Atom :=
  ⟨"sum", ⟨some (.boolean true), some (.boolean true), none, none, none⟩, [.free "a" .any], none,
    none⟩

theorem Operator.plain_sum : Operator.sum.Plain where
  native := rfl
  resultType := by intro type h; cases h
  legal := rfl
  constant := rfl
  idempotent := rfl
  absorber := by intro atom h; cases h
  identity := by intro atom h; cases h
  parameters := by
    intro atom hatom
    rw [List.mem_singleton.mp hatom]
    exact ⟨"a", ⟨any, .new, rfl, rfl⟩, by decide⟩
  distinct := by decide +kernel

/-- An engine without native evaluations, which applies nothing below an application. -/
def Engine.idle : Engine := ⟨fun _ _ => none, 1, []⟩

namespace Atom

def sum (a b : Atom) : Atom :=
  (Engine.idle.apply (.operator .sum .new)
    (.sequence (.plain [a, b]) .new)).result.toOption.getD .any

theorem sum_spec {a b : Atom} (ha : Composed (· = .sum) a) (hb : Composed (· = .sum) b)
    (hsettled : Operator.sum.settled [a, b] = [a, b])
    (hok : (Engine.idle.apply (.operator .sum .new)
      (.sequence (.plain [a, b]) .new)).result.isOk = true) :
    Composed (· = .sum) (sum a b) ∧ ∃ bound, sum a b = Operator.sum.assembled [a, b] bound := by
  cases hresult : (Engine.idle.apply (.operator .sum .new)
      (.sequence (.plain [a, b]) .new)).result with
  | error error =>
      rw [hresult] at hok
      cases hok
  | ok atom =>
      have hsum : sum a b = atom := by
        rw [sum, hresult]
        rfl
      have hlist : ∀ atom ∈ [a, b], Composed (· = .sum) atom := by
        intro atom hatom
        rcases List.mem_cons.mp hatom with rfl | hatom
        · exact ha
        · rw [List.mem_singleton.mp hatom]
          exact hb
      rw [hsum]
      refine ⟨.apply rfl hlist hresult, ?_⟩
      rcases Engine.exists_of_applyAt_ok hresult with ⟨evaluate, happlied⟩
      rcases Operator.plain_sum.applyWith_cases rfl happlied with
        ⟨-, habsorber | hidentity | hsingle⟩ | ⟨-, -, bound, hbound⟩
      · cases habsorber
      · cases hidentity
      · rw [Sequence.elements_plain, hsettled] at hsingle
        cases hsingle
      · rw [Sequence.elements_plain, hsettled] at hbound
        exact ⟨bound, hbound⟩

theorem sum_variables : Composed (· = .sum) (sum (free "x" any) (free "y" any)) ∧
    ∃ bound, sum (free "x" any) (free "y" any) =
      Operator.sum.assembled [free "x" any, free "y" any] bound :=
  sum_spec (.var "x" any .new rfl) (.var "y" any .new rfl) rfl (by decide +kernel)

theorem sum_numbers : Composed (· = .sum) (sum (integer 1) (integer 2)) ∧
    ∃ bound, sum (integer 1) (integer 2) = Operator.sum.assembled [integer 1, integer 2] bound :=
  sum_spec (.literal _ _ _) (.literal _ _ _) rfl (by decide +kernel)

def sumTerms : List Atom :=
  [.operator .sum .new, free "x" any, free "y" any, integer 1, integer 2,
    Operator.sum.assembled [free "x" any, free "y" any] .empty,
    Operator.sum.assembled [integer 1, integer 2] .empty]

theorem sameTerm_assembled (op : Operator Atom) (list : List Atom) (bound bound' : Bindings) :
    SameTerm (op.assembled list bound) (op.assembled list bound') := by
  simp only [SameTerm, Like, Operator.assembled, bare_application]

theorem nodup_fingerprint_sumTerms : (sumTerms.map fingerprint).Nodup := by
  decide +kernel

theorem noCollision_sumTerms (hsources : ∀ a ∈ sources, ∃ b ∈ sumTerms, SameTerm a b) :
    NoCollision (Involved (· = .sum) sources) := by
  apply noCollision_of_nodup nodup_fingerprint_sumTerms
  intro a ha
  refine ha.exists_of_closed hsources ?_ ?_
  · rintro op rfl mark
    exact ⟨.operator .sum .new, List.mem_cons_self, rfl⟩
  · intro head s listMark bound mark hmem
    simp only [sumTerms, List.mem_cons, List.not_mem_nil, or_false] at hmem
    rcases hmem with h | h | h | h | h | h | h
    all_goals cases h
    · change 2 ≤ 2 ∧ [free "x" any, free "y" any] ⊆ sumTerms
      exact ⟨Nat.le_refl 2, by simp [sumTerms]⟩
    · change 2 ≤ 2 ∧ [integer 1, integer 2] ⊆ sumTerms
      exact ⟨Nat.le_refl 2, by simp [sumTerms]⟩

end Atom

end Equational
