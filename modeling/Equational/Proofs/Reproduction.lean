import Equational.Proofs.Parts
import Equational.Proofs.PlainMatching
import Equational.Proofs.RewritingTerms

/-!
# A match reproduces its subject

Every binding set that a match of composed terms finds, wherever it stands in
the stream, puts the subject in the place of the pattern: rewriting succeeds,
and what it gives is the subject up to the order of the arguments of
commutative operators.  The search is followed by induction on the pattern;
below an operator it has found an arrangement of the arguments, and rewriting
flattens what the runs were wrapped up in.
-/

namespace Equational

open Atom Matcher

variable {signature : Operator Atom → Prop} {sources : List Atom}

/-!
## What is bound

What a match binds is involved in the match, and so it is told apart from all else there by its
fingerprint.
-/

def NameMap.AllInvolved (signature : Operator Atom → Prop) (sources : List Atom)
    (binds : Bindings) : Prop :=
  ∀ name atom, binds.find? name = some atom → Involved signature sources atom

theorem NameMap.AllInvolved.insert {binds : Bindings} (h : binds.AllInvolved signature sources)
    {name : String} {atom : Atom} (hatom : Involved signature sources atom) :
    (binds.insert name atom).AllInvolved signature sources := by
  intro other found hfound
  by_cases hname : other = name
  · subst hname
    rw [NameMap.find?_insert_self, Option.some_inj] at hfound
    rw [← hfound]
    exact hatom
  · rw [NameMap.find?_insert_of_ne binds atom hname] at hfound
    exact h other found hfound

theorem NameMap.allInvolved_empty : NameMap.AllInvolved signature sources .empty := by
  intro name atom hfind
  simp at hfind

theorem allInvolved_of_search {evaluate : GuardEvaluator} (hsignature : PlainSignature signature)
    (hcollision : NoCollision (Involved signature sources)) {pattern : Atom}
    (hpattern : Normal signature pattern) (hinvolved : Involved signature sources pattern)
    {subject : Atom} (hsubject : Subject signature subject)
    (hsubjectInvolved : Involved signature sources subject) {binds found : Bindings}
    (hbinds : binds.AllInvolved signature sources)
    (hfound : found ∈ (search evaluate pattern subject binds).alternatives) :
    found.AllInvolved signature sources := by
  induction hpattern generalizing subject binds found with
  | literal value type mark =>
      rw [search_literal] at hfound
      rw [(mem_ofLeaf hfound).2]
      exact hbinds
  | var name type mark hany =>
      have hfree : IsFree name (.var name type none 0 mark) := ⟨type, mark, rfl, hany⟩
      cases hfind : binds.find? name with
      | none =>
          rw [alternatives_search_unbound hfree hfind] at hfound
          split at hfound
          · rw [List.mem_singleton.mp hfound]
            exact hbinds
          · rw [List.mem_singleton.mp hfound]
            exact hbinds.insert hsubjectInvolved
      | some existing =>
          rw [alternatives_search_bound hfree hfind] at hfound
          split at hfound
          · rw [List.mem_singleton.mp hfound]
            exact hbinds
          · cases hfound
  | @application op mark listMark outerMark patterns bound hop hlist hflat haccepts ih =>
      rcases subject_of_mem_search hcollision hinvolved hsubject hsubjectInvolved hfound with
        ⟨other, mark', listMark', outerMark', subjects, bound', rfl, hother, hlist', hflat'⟩
      rcases exists_runs hsignature hcollision hop hother hinvolved hsubjectInvolved hfound with
        ⟨rfl, -⟩ | ⟨hsame, runs, harrangement, hfound⟩
      · exact hbinds
      · refine (Element.forall₂_of_mem_matchAll (extending_listElements evaluate patterns) ?_
          hbinds hfound).1
        intro element helement subject hsubject b b' hb hb'
        rw [listElements_eq_map, List.mem_map] at helement
        rcases helement with ⟨atom, hatom, rfl⟩
        rcases List.mem_map.mp hsubject with ⟨run, hrun, rfl⟩
        have hk : other.properties.isAssociative = true → patterns.length ≠ 1 :=
          (hsame.accepts haccepts).several
        rcases subject_of_run hother (hsignature.plain other hother) hlist' hflat'
          hsubjectInvolved harrangement hk hrun with ⟨hsubject, hrunInvolved⟩
        exact ih atom hatom (.element hinvolved hatom) hsubject hrunInvolved hb hb'

/-!
## Reordered terms

Reordering makes no atom an application of another operator, and a reordered application
contributes the reordered arguments.  Without commutative operators nothing is reordered.
-/

/-- The first term is the second one with the arguments of commutative operators in another order,
at any depth. -/
inductive Reordered : Atom → Atom → Prop
  | same {a b : Atom} (h : SameTerm a b) : Reordered a b
  | application {op other : Operator Atom}
    {mark mark' listMark listMark' outerMark outerMark' : Mark}
      {list middle list' : List Atom} {bound bound' : Bindings} (hop : op.SameTerm other)
      (hlength : list.length = middle.length)
      (hall : ∀ a b, (a, b) ∈ list.zip middle → Reordered a b) (hperm : middle.Perm list')
      (hordered : other.properties.isCommutative = false → middle = list') :
      Reordered
        (.application (.operator op mark)
          (.sequence ⟨op.properties, list⟩ listMark) bound outerMark)
        (.application (.operator other mark') (.sequence ⟨other.properties, list'⟩ listMark') bound'
          outerMark')

namespace Reordered

variable {a b : Atom} {op other : Operator Atom}

theorem forall₂ {list middle : List Atom} (hlength : list.length = middle.length)
    (hall : ∀ a b, (a, b) ∈ list.zip middle → Reordered a b) :
    List.Forall₂ Reordered list middle :=
  List.forall₂_iff_zip.mpr ⟨hlength, fun {a b} => hall a b⟩

theorem heads_eq (h : Reordered a b) (hop : op.SameTerm other) : op.heads a = other.heads b := by
  cases h with
  | same h => exact Operator.heads_congr hop h
  | application hinner hlength hall hperm hordered =>
      rename_i inner inner' _ _ _ _ _ _ _ _ _ _ _
      change (inner == op) = (inner' == other)
      rw [Bool.eq_iff_iff]
      constructor
      · intro hbeq
        exact Operator.beq_trans hinner.symm.beq (Operator.beq_trans hbeq hop.beq)
      · intro hbeq
        exact Operator.beq_trans hinner.beq (Operator.beq_trans hbeq hop.symm.beq)

theorem isUnit_eq (h : Reordered a b) (hop : op.SameTerm other) (hplain : op.Plain)
    (hother : other.Plain) : op.isUnit a = other.isUnit b := by
  cases h with
  | same h => exact Operator.isUnit_congr hop h
  | application hinner hlength hall hperm hordered =>
      unfold Operator.isUnit
      rw [Operator.any_beq_application hplain.identity,
        Operator.any_beq_application hother.identity]

theorem absorbs_eq (h : Reordered a b) (hop : op.SameTerm other) (hplain : op.Plain)
    (hother : other.Plain) : op.absorbs a = other.absorbs b := by
  cases h with
  | same h => exact Operator.absorbs_congr hop h
  | application hinner hlength hall hperm hordered =>
      unfold Operator.absorbs
      rw [Operator.any_beq_application hplain.absorber,
        Operator.any_beq_application hother.absorber]

theorem sequence?_eq_none (h : Reordered a b) (hb : b.sequence? = none) : a.sequence? = none := by
  cases h with
  | same h =>
      cases a with
      | sequence s mark =>
          rcases h.sequence with ⟨s', mark', rfl, -, -⟩
          cases hb
      | _ => rfl
  | application hinner hlength hall hperm hordered => rfl

theorem exists_pieces {run : List Atom} {mark listMark outerMark : Mark} {bound : Bindings}
    (h : Reordered a (.application (.operator other mark)
      (.sequence ⟨other.properties, run⟩ listMark) bound outerMark)) (hop : op.SameTerm other) :
    ∃ middle, List.Forall₂ Reordered (op.pieces a) middle ∧ middle.Perm run ∧
      (other.properties.isCommutative = false → middle = run) := by
  cases h with
  | same h =>
      rcases h.symm.application with ⟨head, argument, bound', mark', rfl, hhead, hargument⟩
      rcases hhead.operator with ⟨inner, innerMark, rfl, hinner⟩
      rcases hargument.sequence with ⟨s, sMark, rfl, -, helements⟩
      rw [Operator.pieces_application (hinner.symm.trans hop.symm).beq]
      refine ⟨run, ?_, List.Perm.refl _, fun _ => rfl⟩
      exact (forall₂_of_map_term helements.symm).imp fun _ _ => same
  | @application inner _ _ _ _ _ _ _ list middle _ _ _ hinner hlength hall hperm hordered =>
      rw [Operator.pieces_application (hinner.trans hop.symm).beq]
      exact ⟨middle, forall₂ hlength hall, hperm, hordered⟩

end Reordered

/-!
### Terms without commutative operators
-/

def Role.isApplied : Role → Bool
  | .body | .element | .head | .argument => true
  | .type | .guard | .parameter | .law | .formal | .declared | .result => false

namespace Atom

def appliedOperator : Atom → List (Operator Atom)
  | application (operator op _) _ _ _ => [op]
  | _ => []

def appliedOperators : Atom → List (Operator Atom) :=
  gather (fun _ role => role.isApplied) appliedOperator

theorem appliedOperators_application_subset {op : Operator Atom} {s : Sequence Atom}
    {mark listMark outerMark : Mark} {bound : Bindings} {atom : Atom} (hatom : atom ∈ s.elements) :
    atom.appliedOperators ⊆
      appliedOperators (application (operator op mark) (sequence s listMark) bound outerMark) := by
  intro other hother
  refine mem_gather.mpr (.inr ⟨(.argument, sequence s listMark), by simp [parts], rfl, ?_⟩)
  exact mem_gather.mpr (.inr ⟨(.element, atom), by simp [parts, hatom], rfl, hother⟩)

theorem mem_appliedOperators_application {op : Operator Atom} {argument : Atom}
    {mark outerMark : Mark} {bound : Bindings} :
    op ∈ appliedOperators (application (operator op mark) argument bound outerMark) :=
  mem_gather.mpr (.inl List.mem_cons_self)

end Atom

theorem Reordered.sameTerm {a b : Atom} (h : Reordered a b)
    (hb : ∀ op ∈ b.appliedOperators, op.properties.isCommutative = false) : SameTerm a b := by
  induction h with
  | same h => exact h
  | @application op other mark mark' listMark listMark' outerMark outerMark' list middle list' bound
      bound' hop hlength hall hperm hordered ih =>
      have hmiddle : middle = list' := by
        apply hordered
        apply hb
        exact mem_appliedOperators_application
      subst hmiddle
      refine SameTerm.of_parts hop (List.forall₂_iff_zip.mpr ⟨hlength, fun {a b} hmem => ?_⟩)
      refine ih a b hmem fun op hop => hb op ?_
      exact appliedOperators_application_subset (List.of_mem_zip hmem).2 hop

/-!
## Putting arguments together again

Flattening reordered runs gives the reordered arguments.  Below the operator these are put
together in some order, and nothing in them is normalized any further.
-/

section

variable {op other : Operator Atom} {mark listMark outerMark : Mark} {subjects : List Atom}
  {bound : Bindings} {k : Nat} {runs : List (List Atom)} {values : List Atom}

/-- Every run is an argument, or several arguments wrapped up. -/
def Wrapped (other : Operator Atom) (mark : Mark) (subjects : List Atom) (run : List Atom) : Prop :=
  (∃ atom ∈ subjects, run = [atom]) ∨
    (other.properties.isAssociative = true ∧ run ⊆ subjects ∧
      (Wrapper.application (.operator other mark) other.properties).wrap run =
        .application (.operator other mark) (.sequence ⟨other.properties, run⟩ .new) .empty .new)

theorem exists_flatten (hop : op.SameTerm other)
    (hflat : other.Flat subjects) (hwrapped : ∀ run ∈ runs, Wrapped other mark subjects run)
    (hvalues : List.Forall₂ Reordered values
      (runs.map (Wrapper.application (.operator other mark) other.properties).wrap)) :
    ∃ middle, List.Forall₂ Reordered (op.flatten values) middle ∧ middle.Perm runs.flatten ∧
      (other.properties.isCommutative = false → middle = runs.flatten) := by
  rw [List.forall₂_map_right_iff] at hvalues
  induction hvalues with
  | nil => exact ⟨[], List.Forall₂.nil, List.Perm.refl _, fun _ => rfl⟩
  | @cons value run values runs hfirst hrest ih =>
      rcases ih fun r hr => hwrapped r (List.mem_cons_of_mem _ hr) with
        ⟨middle, hmiddle, hperm, hordered⟩
      have hpieces : ∃ pieces, List.Forall₂ Reordered (op.pieces value) pieces ∧ pieces.Perm run ∧
          (other.properties.isCommutative = false → pieces = run) := by
        rcases hwrapped run List.mem_cons_self with ⟨atom, hatom, rfl⟩ | ⟨-, -, hwrap⟩
        · have hheads := (hfirst.heads_eq hop).trans (hflat.heads atom hatom)
          rw [Operator.pieces_of_heads_eq_false hheads]
          exact ⟨[atom], List.Forall₂.cons hfirst List.Forall₂.nil, List.Perm.refl _, fun _ => rfl⟩
        · rw [hwrap] at hfirst
          exact hfirst.exists_pieces hop
      rcases hpieces with ⟨pieces, hall, hpiecesPerm, hpiecesOrdered⟩
      refine ⟨pieces ++ middle, ?_, ?_, ?_⟩
      · rw [Operator.flatten_eq_flatMap, List.flatMap_cons, ← Operator.flatten_eq_flatMap]
        exact List.rel_append hall hmiddle
      · rw [List.flatten_cons]
        exact hpiecesPerm.append hperm
      · intro hno
        rw [List.flatten_cons, hpiecesOrdered hno, hordered hno]

theorem exists_settled (hop : op.SameTerm other) (hplain : op.Plain) (hother : other.Plain)
    (hflat : other.properties.isAssociative = true → other.Flat subjects)
    (harrangement : Arrangement other.properties.isAssociative other.properties.isCommutative
      subjects k runs)
    (hwrapped : ∀ run ∈ runs, Wrapped other mark subjects run)
    (hvalues : List.Forall₂ Reordered values
      (runs.map (Wrapper.application (.operator other mark) other.properties).wrap)) :
    ∃ middle, List.Forall₂ Reordered (op.settled values) middle ∧ middle.Perm subjects ∧
      (other.properties.isCommutative = false → middle = subjects) := by
  cases hassociative : op.properties.isAssociative with
  | false =>
      have hsingles := harrangement.eq_singles
        (harrangement.length_eq (hop.isAssociative ▸ hassociative))
      rw [hsingles, map_wrap_singles] at hvalues
      refine ⟨runs.flatten, ?_, harrangement.perm, harrangement.ordered⟩
      rw [Operator.settled, hassociative]
      exact hvalues
  | true =>
      have hsubjects := hflat (hop.isAssociative ▸ hassociative)
      rcases exists_flatten hop hsubjects hwrapped hvalues with ⟨middle, hall, hperm, hordered⟩
      have hperm' := hperm.trans harrangement.perm
      have hunits : ∀ atom ∈ op.flatten values, (!op.isUnit atom) = true := by
        intro atom hatom
        rcases exists_of_mem_forall₂ hall hatom with ⟨b, hb, hreordered⟩
        rw [hreordered.isUnit_eq hop hplain hother, hsubjects.units b (hperm'.subset hb)]
        rfl
      refine ⟨middle, ?_, hperm', fun hno => (hordered hno).trans (harrangement.ordered hno)⟩
      rw [Operator.settled, if_pos hassociative, Operator.simplify_eq_filter hplain.idempotent,
        List.filter_eq_self.mpr hunits]
      exact hall

/-- What an atom is compared with to see that an operator leaves it in its place. -/
def Kept (other : Operator Atom) (atom : Atom) : Prop :=
  atom.sequence? = none ∧ (other.properties.isAssociative = true →
    other.isUnit atom = false ∧ other.absorbs atom = false)

theorem ofList_of_reordered (hop : op.SameTerm other) (hplain : op.Plain) (hother : other.Plain)
    {targets : List Atom} (hvalues : List.Forall₂ Reordered values targets)
    (htargets : ∀ atom ∈ targets, Kept other atom) :
    Sequence.ofList op.properties values = ⟨op.properties, values⟩ := by
  rw [Sequence.ofList, Sequence.normalize_eq_self hplain.idempotent]
  intro hassociative atom hatom
  rcases exists_of_mem_forall₂ hvalues hatom with ⟨b, hb, hreordered⟩
  rcases htargets b hb with ⟨hsequence, hunits⟩
  rcases hunits (hop.isAssociative ▸ hassociative) with ⟨hunit, habsorbs⟩
  rw [Operator.any_beq_comm, Operator.any_beq_comm]
  change _ ∧ op.absorbs atom = false ∧ op.isUnit atom = false
  rw [hreordered.absorbs_eq hop hplain hother, hreordered.isUnit_eq hop hplain hother]
  exact ⟨hreordered.sequence?_eq_none hsequence, habsorbs, hunit⟩

theorem kept_of_wrapped (hother : other.Plain) (hsubjects : ∀ atom ∈ subjects, Kept other atom)
    {run : List Atom} (hrun : Wrapped other mark subjects run) :
    Kept other ((Wrapper.application (.operator other mark) other.properties).wrap run) := by
  rcases hrun with ⟨atom, hatom, rfl⟩ | ⟨-, -, hwrap⟩
  · exact hsubjects atom hatom
  · rw [hwrap]
    exact ⟨rfl, fun _ => ⟨Operator.any_beq_application hother.identity _ _ _ _,
      Operator.any_beq_application hother.absorber _ _ _ _⟩⟩

/-- A pattern and a subject that apply one operator, and the runs into which an arrangement cuts the
arguments of the subject. -/
structure Arranged (signature : Operator Atom → Prop) (op other : Operator Atom) (mark : Mark)
    (patterns subjects : List Atom) (runs : List (List Atom)) : Prop where
  left : signature op
  right : signature other
  same : op.SameTerm other
  patternsNormal : ∀ atom ∈ patterns, Normal signature atom
  patternsFlat : op.properties.isAssociative = true → op.Flat patterns
  patternsAccepts : op.Accepts patterns.length
  subjectsNormal : ∀ atom ∈ subjects, Normal signature atom
  subjectsFlat : other.properties.isAssociative = true → other.Flat subjects
  subjectsAccepts : other.Accepts subjects.length
  arrangement : Arrangement other.properties.isAssociative other.properties.isCommutative subjects
    patterns.length runs
  wrapped : ∀ run ∈ runs, Wrapped other mark subjects run

namespace Arranged

variable {patterns : List Atom} (h : Arranged signature op other mark patterns subjects runs)
  (hsignature : PlainSignature signature)

include h

theorem kept : ∀ atom ∈ subjects, Kept other atom := fun atom hatom =>
  ⟨(h.subjectsNormal atom hatom).sequence?_eq_none, fun hassociative =>
    ⟨(h.subjectsFlat hassociative).units atom hatom,
      (h.subjectsFlat hassociative).absorbs atom hatom⟩⟩

include hsignature

theorem settled_patterns : op.settled patterns = patterns := by
  unfold Operator.settled
  split
  · rename_i hassociative
    have hflat := h.patternsFlat hassociative
    rw [Operator.simplify_eq_filter (hsignature.plain op h.left).idempotent,
      Operator.flatten_of_flat hflat]
    exact List.filter_eq_self.mpr fun atom hatom => by simp [hflat.units atom hatom]
  · rfl

variable (hvalues : List.Forall₂ Reordered values
  (runs.map (Wrapper.application (.operator other mark) other.properties).wrap))

include hvalues

theorem settled : ∃ middle, List.Forall₂ Reordered (op.settled values) middle ∧
    middle.Perm subjects ∧ (other.properties.isCommutative = false → middle = subjects) :=
  exists_settled h.same (hsignature.plain op h.left) (hsignature.plain other h.right) h.subjectsFlat
    h.arrangement h.wrapped hvalues

/-- Whether the arguments were rewritten or passed over, they are put together in the same way. -/
theorem reordered {list : List Atom} (hlist : op.settled values = list) {m m' m'' : Mark}
    {listMark' outerMark' : Mark} {bound' : Bindings} :
    Reordered (.application (.operator op m) (.sequence ⟨op.properties, list⟩ m') bound m'')
      (.application (.operator other mark) (.sequence ⟨other.properties, subjects⟩ listMark') bound'
        outerMark') := by
  rcases h.settled hsignature hvalues with ⟨middle, hmiddle, hperm, hordered⟩
  rw [hlist, List.forall₂_iff_zip] at hmiddle
  exact .application h.same hmiddle.1 (fun a b => hmiddle.2) hperm hordered

theorem ofList_values : Sequence.ofList op.properties values = ⟨op.properties, values⟩ := by
  have hother := hsignature.plain other h.right
  refine ofList_of_reordered h.same (hsignature.plain op h.left) hother hvalues ?_
  intro atom hatom
  rcases List.mem_map.mp hatom with ⟨run, hrun, rfl⟩
  exact kept_of_wrapped hother h.kept (h.wrapped run hrun)

theorem ofList_settled :
    Sequence.ofList op.properties (op.settled values) = ⟨op.properties, op.settled values⟩ := by
  rcases h.settled hsignature hvalues with ⟨middle, hmiddle, hperm, -⟩
  exact ofList_of_reordered h.same (hsignature.plain op h.left) (hsignature.plain other h.right)
    hmiddle fun atom hatom => h.kept atom (hperm.subset hatom)

theorem exists_applied {engine : Engine} (hnesting : engine.nesting ≠ 0) (m : Mark)
    (place : Place) :
    ∃ bound, (engine.applyAt place (.operator op m)
        (.sequence (.ofList op.properties values) .new)).result =
      .ok (op.assembled (op.settled values) bound) := by
  have hplain := hsignature.plain op h.left
  have hother := hsignature.plain other h.right
  rcases h.settled hsignature hvalues with ⟨middle, hmiddle, hperm, -⟩
  have habsorbs : op.properties.isAssociative = true →
      ∀ atom ∈ op.settled values, op.absorbs atom = false := by
    intro hassociative atom hatom
    rcases exists_of_mem_forall₂ hmiddle hatom with ⟨b, hb, hb'⟩
    rw [hb'.absorbs_eq h.same hplain hother]
    exact (h.subjectsFlat (h.same.isAssociative ▸ hassociative)).absorbs b (hperm.subset hb)
  have hnumber : op.Accepts (op.settled values).length := by
    rw [hmiddle.length_eq, hperm.length_eq]
    exact h.same.symm.accepts h.subjectsAccepts
  rcases @Engine.applyAt_operator engine place op m
    (.sequence (.ofList op.properties values) .new) hnesting with ⟨evaluate, happly⟩
  rw [happly, h.ofList_values hsignature hvalues]
  exact hplain.applyWith_ok op.mismatch?_properties habsorbs hnumber

end Arranged

end

/-!
## Rewriting under what was found

After a match a variable is bound to the subject.  If the arguments of an application reproduce
the runs that they were matched with, the application reproduces the subject.
-/

section

variable {engine : Engine} {evaluate : GuardEvaluator}

theorem exists_find? (hcollision : NoCollision (Involved signature sources)) {name : String}
    {pattern subject : Atom} (hpattern : pattern.IsFree name)
    (hinvolved : Involved signature sources pattern)
    (hsubject : Involved signature sources subject) (hconstant : subject.isConstant = true)
    {binds found final : Bindings} (hbinds : binds.AllInvolved signature sources)
    (hfound : found ∈ (search evaluate pattern subject binds).alternatives)
    (hfinal : found.Extends final) :
    ∃ value, final.find? name = some value ∧ SameTerm value subject := by
  cases hfind : binds.find? name with
  | none =>
      rw [alternatives_search_unbound hpattern hfind] at hfound
      split at hfound
      · rename_i hbeq
        rcases (hcollision.sameTerm hinvolved hsubject hbeq).isFree hpattern with
          ⟨type, mark, rfl, -⟩
        cases hconstant
      · rw [List.mem_singleton.mp hfound] at hfinal
        exact ⟨subject, hfinal name subject (NameMap.find?_insert_self _ _ _), Like.refl _⟩
  | some existing =>
      rw [alternatives_search_bound hpattern hfind] at hfound
      split at hfound
      · rename_i hbeq
        rw [List.mem_singleton.mp hfound] at hfinal
        exact ⟨existing, hfinal name existing hfind,
          hcollision.sameTerm (hbinds name existing hfind) hsubject hbeq⟩
      · cases hfound

/-- If the arguments reproduce the runs, the application reproduces the subject.  Rewriting changes
no argument, or applies the operator again. -/
theorem exists_application (hsignature : PlainSignature signature) (hnesting : engine.nesting ≠ 0)
    {op other : Operator Atom} {mark mark' listMark listMark' outerMark outerMark' : Mark}
    {patterns subjects : List Atom} {bound bound' : Bindings} {runs : List (List Atom)}
    (h : Arranged signature op other mark' patterns subjects runs) {binds : Bindings}
    (hall : List.Forall₂ (fun atom target => ∀ place, ∃ new : Rewritten Atom,
      (rewriteWith engine.applyAt binds place atom).result = .ok new ∧ Reordered new.value target)
      patterns (runs.map (Wrapper.application (.operator other mark') other.properties).wrap))
    (place : Place) :
    ∃ new, (rewriteWith engine.applyAt binds place (.application (.operator op mark)
        (.sequence ⟨op.properties, patterns⟩ listMark) bound outerMark)).result = .ok new ∧
      Reordered new.value (.application (.operator other mark')
        (.sequence ⟨other.properties, subjects⟩ listMark') bound' outerMark') := by
  have hplain := hsignature.plain op h.left
  have hsettled := h.settled_patterns hsignature
  rcases exists_rewriteList hall (1 :: 1 :: place) with ⟨rewritten, hrewritten, hvalues⟩
  cases hinert : isInert (.application (.operator op mark)
      (.sequence ⟨op.properties, patterns⟩ listMark) bound outerMark) binds with
  | true =>
      rw [rewriteList_of_isInert fun atom hatom => Normal.isInert_of_application hsignature h.left
        (.application h.left h.patternsNormal h.patternsFlat h.patternsAccepts) h.patternsNormal
        hinert hatom] at hrewritten
      injection hrewritten with hrewritten
      rw [← hrewritten] at hvalues
      exact ⟨_, rewriteWith_of_isInert hinert, h.reordered hsignature hvalues hsettled⟩
  | false =>
      cases hchanged : rewritten.changed with
      | false =>
          rw [list_value_of_not_changed hrewritten hchanged] at hvalues
          refine ⟨⟨.application (.operator op mark) (.sequence ⟨op.properties, patterns⟩ listMark)
            bound outerMark, false⟩, ?_, h.reordered hsignature hvalues hsettled⟩
          rw [Normal.rewriteWith_application hplain hinert]
          refine ⟨rewritten, hrewritten, ?_⟩
          rw [hchanged]
          rfl
      | true =>
          rcases h.exists_applied hsignature hvalues hnesting mark place with ⟨bound, happlied⟩
          refine ⟨⟨op.assembled (op.settled rewritten.value) bound, true⟩, ?_, ?_⟩
          · rw [Normal.rewriteWith_application hplain hinert]
            refine ⟨rewritten, hrewritten, ?_⟩
            rw [hchanged, if_pos rfl]
            exact ⟨_, happlied, rfl⟩
          · simp only [Operator.assembled, h.ofList_settled hsignature hvalues]
            exact h.reordered hsignature hvalues rfl

/-- Only a variable takes several arguments wrapped up, since an application of the operator does
not stand among the patterns. -/
theorem exists_reproduced_run (hsignature : PlainSignature signature)
    (hcollision : NoCollision (Involved signature sources)) {op other : Operator Atom}
    (hother : signature other) (hsame : op.SameTerm other) {pattern : Atom}
    (hpattern : Normal signature pattern) (hheads : op.heads pattern = false)
    (hinvolved : Involved signature sources pattern) {mark listMark outerMark : Mark}
    {run : List Atom} {bound : Bindings}
    (hrun : Involved signature sources (.application (.operator other mark)
      (.sequence ⟨other.properties, run⟩ listMark) bound outerMark))
    (hconstants : ∀ atom ∈ run, atom.isConstant = true) {binds found final : Bindings}
    (hbinds : binds.AllInvolved signature sources)
    (hfound : found ∈ (search evaluate pattern (.application (.operator other mark)
      (.sequence ⟨other.properties, run⟩ listMark) bound outerMark) binds).alternatives)
    (hfinal : found.Extends final) (place : Place) :
    ∃ new, (rewriteWith engine.applyAt final place pattern).result = .ok new ∧
      Reordered new.value (.application (.operator other mark)
        (.sequence ⟨other.properties, run⟩ listMark) bound outerMark) := by
  cases hpattern with
  | literal value type mark' =>
      rcases (hcollision.sameTerm hinvolved hrun (mem_ofLeaf hfound).1).literal with ⟨_, _, heq, -⟩
      cases heq
  | var name type mark' hany =>
      have hfree : IsFree name (.var name type none 0 mark') := ⟨type, mark', rfl, hany⟩
      have hconstant := (@Normal.isConstant_application_iff _ mark listMark outerMark _ bound
        (hsignature.plain other hother)).mpr hconstants
      rcases exists_find? hcollision hfree hinvolved hrun hconstant hbinds hfound hfinal with
        ⟨value, hvalue, hsameValue⟩
      exact ⟨⟨value, true⟩, rewriteWith_free hfree hvalue, .same hsameValue⟩
  | @application inner mark' listMark' outerMark' list bound' hinner hlist hflat haccepts =>
      have hequal : inner.SameTerm other := by
        rcases exists_runs hsignature hcollision hinner hother hinvolved hrun hfound with
          ⟨-, hterm⟩ | ⟨hinnerSame, -⟩
        · rcases hterm.application with ⟨head, argument, bound, mark, heq, hhead, -⟩
          cases heq
          rcases hhead.operator with ⟨op', opMark, heq, hop'⟩
          cases heq
          exact hop'
        · exact hinnerSame
      have hbeq : (inner == op) = true := (hequal.trans hsame.symm).beq
      change (inner == op) = false at hheads
      rw [hbeq] at hheads
      cases hheads

/-- Whatever is found for a normal pattern reproduces the subject, as does all that extends it. -/
theorem exists_reproduced (hsignature : PlainSignature signature)
    (hcollision : NoCollision (Involved signature sources)) (hnesting : engine.nesting ≠ 0)
    {pattern : Atom} (hpattern : Normal signature pattern)
    (hinvolved : Involved signature sources pattern) {subject : Atom}
    (hsubject : Normal signature subject) (hsubjectInvolved : Involved signature sources subject)
    (hconstant : subject.isConstant = true) {binds found final : Bindings}
    (hbinds : binds.AllInvolved signature sources)
    (hfound : found ∈ (search evaluate pattern subject binds).alternatives)
    (hfinal : found.Extends final) (place : Place) :
    ∃ new, (rewriteWith engine.applyAt final place pattern).result = .ok new ∧
      Reordered new.value subject := by
  induction hpattern generalizing subject binds found place with
  | literal value type mark =>
      refine ⟨⟨.literal value type mark, false⟩, rfl, .same ?_⟩
      exact hcollision.sameTerm hinvolved hsubjectInvolved (mem_ofLeaf hfound).1
  | var name type mark hany =>
      have hfree : IsFree name (.var name type none 0 mark) := ⟨type, mark, rfl, hany⟩
      rcases exists_find? hcollision hfree hinvolved hsubjectInvolved hconstant hbinds hfound hfinal
        with ⟨value, hvalue, hsame⟩
      exact ⟨⟨value, true⟩, rewriteWith_free hfree hvalue, .same hsame⟩
  | @application op mark listMark outerMark patterns bound hop hlist hflat haccepts ih =>
      rcases subject_of_mem_search hcollision hinvolved
        (.normal hsubject) hsubjectInvolved hfound with
        ⟨other, mark', listMark', outerMark', subjects, bound', rfl, hother, hlist', hflat'⟩
      have haccepts' : other.Accepts subjects.length := by
        cases hsubject with
        | application _ _ _ h => exact h
      have hconstants :=
        (Normal.isConstant_application_iff (hsignature.plain other hother)).mp hconstant
      have hplain' := hsignature.plain other hother
      have hnormal :=
        @Normal.application _ _ mark listMark outerMark _ bound hop hlist hflat haccepts
      rcases exists_runs hsignature hcollision hop hother hinvolved hsubjectInvolved hfound with
        ⟨rfl, hsame⟩ | ⟨hsame, runs, harrangement, hmatch⟩
      · have hpatternConstant := (isConstant_bare (fun _ => none) _).symm.trans
          ((congrArg isConstant hsame).trans ((isConstant_bare _ _).trans hconstant))
        exact ⟨_, rewriteWith_of_isInert ((hnormal.isInert_iff hsignature).mpr
          (Or.inr hpatternConstant)), .same hsame⟩
      · have hseveral : other.properties.isAssociative = true → patterns.length ≠ 1 :=
          (hsame.accepts haccepts).several
        have hcases := fun run hrun => @wrap_cases _ _ _ mark' _ _ _ _ _ _ hplain' hlist' hflat'
          hsubjectInvolved harrangement hseveral run hrun
        have hwrapped : ∀ run ∈ runs, Wrapped other mark' subjects run := by
          intro run hrun
          rcases hcases run hrun with ⟨atom, hatom, hsingle, -⟩ | ⟨hassociative, hsub, hwrap, -⟩
          · exact Or.inl ⟨atom, hatom, hsingle⟩
          · exact Or.inr ⟨hassociative, hsub, hwrap⟩
        have hstep : ∀ element ∈ listElements evaluate patterns,
            ∀ target ∈ runs.map (Wrapper.application (.operator other mark') other.properties).wrap,
            ∀ b b', b.AllInvolved signature sources →
              b' ∈ (element.matcher target b).alternatives → b'.AllInvolved signature sources := by
          intro element helement target htarget b b' hb hb'
          rw [listElements_eq_map, List.mem_map] at helement
          rcases helement with ⟨atom, hatom, rfl⟩
          rcases List.mem_map.mp htarget with ⟨run, hrun, rfl⟩
          rcases subject_of_run hother hplain' hlist' hflat' hsubjectInvolved harrangement
            hseveral hrun with ⟨hrunSubject, hrunInvolved⟩
          exact allInvolved_of_search hsignature hcollision (hlist atom hatom)
            (.element hinvolved hatom) hrunSubject hrunInvolved hb hb'
        have hchain := (Element.forall₂_of_mem_matchAll
          (extending_listElements evaluate patterns) hstep hbinds hmatch).2
        rw [listElements_eq_map, List.forall₂_map_left_iff] at hchain
        have hall : List.Forall₂ (fun atom target => ∀ place, ∃ new : Rewritten Atom,
            (rewriteWith engine.applyAt final place atom).result = .ok new ∧
              Reordered new.value target) patterns
            (runs.map (Wrapper.application (.operator other mark') other.properties).wrap) := by
          rw [List.forall₂_iff_zip] at hchain ⊢
          refine ⟨hchain.1, ?_⟩
          intro atom target hmem place
          rcases hchain.2 hmem with ⟨b, b', hb, -, hb', hextends⟩
          have hatom := (List.of_mem_zip hmem).1
          rcases List.mem_map.mp (List.of_mem_zip hmem).2 with ⟨run, hrun, rfl⟩
          have hlater := hextends.trans hfinal
          rcases hcases run hrun with ⟨x, hx, rfl, hxNormal, hxInvolved⟩ |
            ⟨hassociative, hsub, hwrap, hwInvolved⟩
          · exact ih atom hatom (.element hinvolved hatom) hxNormal hxInvolved
              (hconstants x hx) hb hb' hlater place
          · rw [hwrap] at hb' ⊢
            have hheads := (hflat (hsame.isAssociative ▸ hassociative)).heads atom hatom
            exact exists_reproduced_run hsignature hcollision hother hsame (hlist atom hatom) hheads
              (.element hinvolved hatom) hwInvolved (fun x hx => hconstants x (hsub hx)) hb hb'
              hlater place
        exact exists_application hsignature hnesting
          ⟨hop, hother, hsame, hlist, hflat, haccepts, hlist', hflat', haccepts', harrangement,
            hwrapped⟩ hall place

end

/-!
## Composed terms
-/

/-- Whatever a match of composed terms finds puts the subject in the place of the pattern. -/
theorem Engine.rewrite_reproduces_subject {engine : Engine} (hnesting : engine.nesting ≠ 0)
    (hplain : ∀ op, signature op → op.Plain) {pattern subject : Atom}
    (hcollision : NoCollision (Involved signature [pattern, subject]))
    (hpattern : Composed signature pattern) (hsubject : Composed signature subject)
    (hconstant : subject.isConstant = true) {found : Bindings}
    (hfound : found ∈ (engine.tryMatch pattern subject .empty).alternatives) :
    ∃ new, (engine.rewrite found pattern).result = .ok new ∧ Reordered new.value subject ∧
      ((∀ op ∈ pattern.appliedOperators ++ subject.appliedOperators,
          op.properties.isCommutative = false) →
        SameTerm new.value subject ∧ (new.value == subject) = true) := by
  have hsignature := plainSignature_of_noCollision hplain hcollision
  have hpatternInvolved : Involved signature [pattern, subject] pattern := .source (by simp)
  have hsubjectInvolved : Involved signature [pattern, subject] subject := .source (by simp)
  have hsearch : found ∈ (search engine.evaluate pattern subject .empty).alternatives := by
    rw [← alternatives_watched]
    exact hfound
  rcases exists_reproduced hsignature hcollision hnesting (hpattern.normal hsignature)
    hpatternInvolved (hsubject.normal hsignature) hsubjectInvolved hconstant
    NameMap.allInvolved_empty hsearch (NameMap.Extends.refl found) engine.place with
    ⟨new, hnew, hreordered⟩
  refine ⟨new, hnew, hreordered, fun hordered => ?_⟩
  have hsame := hreordered.sameTerm fun op hop => hordered op (List.mem_append_right _ hop)
  exact ⟨hsame, hsame.beq⟩

theorem Engine.rewrite_reproduces_sum :
    ∃ found ∈ (Engine.idle.tryMatch (sum (free "x" any) (free "y" any))
      (sum (integer 1) (integer 2))
        .empty).alternatives,
      ∃ new, (Engine.idle.rewrite found (sum (free "x" any) (free "y" any))).result = .ok new ∧
        Reordered new.value (sum (integer 1) (integer 2)) := by
  rcases sum_variables with ⟨hpattern, bound, hsum⟩
  rcases sum_numbers with ⟨hsubject, bound', hsum'⟩
  have hcollision : NoCollision (Involved (· = .sum)
      [sum (free "x" any) (free "y" any), sum (integer 1) (integer 2)]) := by
    apply noCollision_sumTerms
    intro a ha
    simp only [List.mem_cons, List.not_mem_nil, or_false] at ha
    rcases ha with ha | ha
    · rw [ha, hsum]
      exact ⟨_, by simp [sumTerms],
        sameTerm_assembled .sum [free "x" any, free "y" any] bound .empty⟩
    · rw [ha, hsum']
      exact ⟨_, by simp [sumTerms], sameTerm_assembled .sum [integer 1, integer 2] bound' .empty⟩
  have hnonempty : (Engine.idle.tryMatch (sum (free "x" any) (free "y" any))
      (sum (integer 1) (integer 2)) .empty).alternatives.isEmpty = false := by
    decide +kernel
  rcases List.exists_mem_of_ne_nil _ (List.isEmpty_eq_false_iff.mp hnonempty) with ⟨found, hfound⟩
  refine ⟨found, hfound, ?_⟩
  rcases @Engine.rewrite_reproduces_subject (· = .sum) _ (by decide)
    (by rintro op rfl; exact Operator.plain_sum) _ _ hcollision hpattern hsubject
    (by rw [hsum']; rfl) _ hfound with ⟨new, hnew, hreordered, -⟩
  exact ⟨new, hnew, hreordered⟩

end Equational
