import Equational.Proofs.Extension
import Equational.Proofs.NormalTerms

/-!
# Matching normal terms

Two applications of one plain operator are matched by their arguments alone:
the result type and the laws are constants, which take their equals and bind
nothing.  The subjects are the arguments, or runs of them wrapped up.
-/

namespace Equational

open Atom Matcher

/-!
## Laws

Constant laws take the same laws and bind nothing.
-/

theorem Element.alternatives_matchAll_of_forall₂ {elements : List Element} {subjects : List Atom}
    (h : List.Forall₂ (fun element subject =>
      ∀ binds, (Element.matcher element subject binds).alternatives = [binds]) elements subjects)
    (binds : Bindings) : (matchAll elements subjects binds).alternatives = [binds] := by
  induction h with
  | nil => rfl
  | cons hfirst _ ih =>
      rw [alternatives_matchAll_cons, hfirst binds, List.flatMap_singleton]
      exact ih

namespace PropertySet

theorem get_lawElements (evaluate : GuardEvaluator) (properties : Properties) (law : Law) :
    (lawElements evaluate properties).get law = (properties.get law).map (element evaluate) := by
  rcases properties with ⟨a, c, i, b, d⟩
  have hoption : ∀ value, optionElement evaluate value = value.map (element evaluate) := by
    intro value
    cases value <;> rfl
  cases law with
  | associative => exact hoption a
  | commutative => exact hoption c
  | idempotent => exact hoption i
  | absorber => exact hoption b
  | identity => exact hoption d

theorem exists_effectives {subject : Properties} {entries : List (Law × Element)}
    (h : ∀ entry ∈ entries, ∃ value, subject.get entry.1 = some value ∧
      ∀ binds, (entry.2.matcher value binds).alternatives = [binds]) :
    ∃ values, effectives subject entries = .ok values ∧ List.Forall₂ (fun element value =>
      ∀ binds, (Element.matcher element value binds).alternatives = [binds])
      (entries.map (·.2)) values := by
  induction entries with
  | nil => exact ⟨[], rfl, List.Forall₂.nil⟩
  | cons entry rest ih =>
      rcases h entry List.mem_cons_self with ⟨value, hvalue, haccepts⟩
      rcases ih fun other hother => h other (List.mem_cons_of_mem _ hother) with
        ⟨values, hvalues, hrest⟩
      refine ⟨value :: values, ?_, List.Forall₂.cons haccepts hrest⟩
      have heffective : effective? subject entry.1 = some value := by
        simp only [effective?, hvalue]
      simp only [effectives, heffective, hvalues]
      rfl

theorem alternatives_matchLaws {evaluate : GuardEvaluator} {properties subject : Properties}
    (hconstant : properties.isConstant = true) (hsame : properties.SameTerm subject)
    (binds : Bindings) :
    ((lawElements evaluate properties).matchLaws subject binds).alternatives = [binds] := by
  have hentries : ∀ entry ∈ (lawElements evaluate properties).specified,
      ∃ value, subject.get entry.1 = some value ∧
        ∀ binds, (entry.2.matcher value binds).alternatives = [binds] := by
    intro entry hentry
    rcases List.mem_filterMap.mp hentry with ⟨law, -, hlaw⟩
    rcases Option.map_eq_some_iff.mp hlaw with ⟨found, hget, rfl⟩
    rw [get_lawElements] at hget
    rcases Option.map_eq_some_iff.mp hget with ⟨atom, hatom, rfl⟩
    have hterm := hsame.get law
    rw [hatom, Option.map_some] at hterm
    rcases Option.map_eq_some_iff.mp hterm.symm with ⟨value, hvalue, hsameValue⟩
    refine ⟨value, hvalue, ?_⟩
    exact alternatives_search_of_beq evaluate (get_isConstant hconstant hatom)
      (beq_of_bare_eq hsameValue)
  rcases exists_effectives hentries with ⟨values, hvalues, hall⟩
  simp only [matchLaws, hvalues]
  exact Element.alternatives_matchAll_of_forall₂ hall binds

end PropertySet

/-!
## Applications of one operator

An application matches one of the same operator through the arguments: heads and laws are
constant, and bind nothing.
-/

section

variable {evaluate : GuardEvaluator} {op other : Operator Atom} {mark mark' listMark listMark' :
  Mark} {outerMark outerMark' : Mark} {patterns subjects : List Atom} {bound bound' : Bindings}
  {binds found : Bindings}

theorem alternatives_headType (hop : op.Plain) (hsame : op.SameTerm other) (binds : Bindings) :
    (headType evaluate (.operator op mark)
      (Atom.application (.operator other mark') (.sequence ⟨other.properties, subjects⟩ listMark')
        bound' outerMark').type binds).alternatives = [binds] := by
  have hresult := hsame.resultType
  rcases op with ⟨name, properties, parameters, resultType, native⟩
  rcases other with ⟨name', properties', parameters', resultType', native'⟩
  cases resultType with
  | none => rfl
  | some result =>
      simp only [Option.map_some] at hresult
      rcases Option.map_eq_some_iff.mp hresult.symm with ⟨result', rfl, hterm⟩
      exact alternatives_search_of_beq evaluate (hop.resultType result rfl) (beq_of_bare_eq hterm)
        binds

theorem alternatives_applicationParts (hop : op.Plain) (hsame : op.SameTerm other)
    (binds : Bindings) (pattern : Atom) (argument : Matcher) :
    (applicationParts pattern (watched (.operator op mark) (search evaluate (.operator op mark)))
      argument (argumentElements evaluate (.sequence ⟨op.properties, patterns⟩ listMark))
      (.application (.operator other mark')
        (.sequence ⟨other.properties, subjects⟩ listMark') bound'
        outerMark') binds).alternatives =
      (Sequence.matchElements (.application (.operator other mark') other.properties)
        (listElements evaluate patterns) ⟨other.properties, subjects⟩ binds).alternatives := by
  have hhead : (watched (.operator op mark) (search evaluate (.operator op mark))
      (.operator other mark') binds).alternatives = [binds] := by
    have hbeq : Atom.SameTerm (.operator other mark') (.operator op mark) := by
      rw [SameTerm, Like, bare_operator, bare_operator, hsame]
    exact alternatives_search_of_beq evaluate rfl hbeq.beq binds
  unfold applicationParts
  simp only [Traced.alternatives_continued, Traced.alternatives_mapFailure, hhead,
    List.flatMap_singleton, argumentElements, operator?, Option.isSome_some, if_true,
    Sequence.matchUnder, PropertySet.alternatives_matchLaws hop.constant hsame.properties]

theorem mem_search_application (hop : op.Plain)
    (hfaithful : op.fingerprint = other.fingerprint → op.SameTerm other)
    (hfound : found ∈ (search evaluate
      (.application (.operator op mark) (.sequence ⟨op.properties, patterns⟩ listMark) bound
        outerMark)
      (.application (.operator other mark')
        (.sequence ⟨other.properties, subjects⟩ listMark') bound'
        outerMark') binds).alternatives) :
    found = binds ∧ ((Atom.application (.operator op mark)
        (.sequence ⟨op.properties, patterns⟩ listMark) bound outerMark) ==
      .application (.operator other mark') (.sequence ⟨other.properties, subjects⟩ listMark') bound'
        outerMark') = true ∨
      op.SameTerm other ∧
        found ∈ (Sequence.matchElements (.application (.operator other mark') other.properties)
          (listElements evaluate patterns) ⟨other.properties, subjects⟩ binds).alternatives := by
  rw [search_application] at hfound
  rcases mem_ofStructure hfound with ⟨-, hbeq, rfl⟩ | ⟨-, middle, hmiddle, hfound⟩
  · exact Or.inl ⟨rfl, hbeq⟩
  · have hsame : op.SameTerm other := by
      apply hfaithful
      unfold applicationParts at hfound
      simp only [Traced.alternatives_continued, List.mem_flatMap] at hfound
      rcases hfound with ⟨b, hb, -⟩
      rw [Traced.alternatives_mapFailure, alternatives_watched, search_operator] at hb
      exact ((Atom.beq_iff _ _).mp (mem_ofLeaf hb).1).2
    rw [alternatives_headType hop hsame, List.mem_singleton] at hmiddle
    rw [hmiddle, alternatives_applicationParts hop hsame] at hfound
    exact Or.inr ⟨hsame, hfound⟩

end

/-!
## Subjects

Patterns meet arguments, or several of them wrapped up as they are; whatever an application finds
anything in is an application.
-/

/-- What patterns meet in a normal term: a normal term, or a run of arguments wrapped up. -/
inductive Subject (signature : Operator Atom → Prop) : Atom → Prop
  | normal {atom : Atom} (h : Normal signature atom) : Subject signature atom
  | run {op : Operator Atom} {mark listMark outerMark : Mark} {list : List Atom} {bound : Bindings}
      (hop : signature op) (hlist : ∀ atom ∈ list, Normal signature atom)
      (hflat : op.properties.isAssociative = true → op.Flat list) :
      Subject signature (.application (.operator op mark)
        (.sequence ⟨op.properties, list⟩ listMark) bound outerMark)

theorem Subject.of_application {signature : Operator Atom → Prop} {head argument : Atom}
    {bound : Bindings} {mark : Mark}
    (h : Subject signature (.application head argument bound mark)) :
    ∃ op opMark list listMark, head = .operator op opMark ∧
      argument = .sequence ⟨op.properties, list⟩ listMark ∧ signature op ∧
      (∀ atom ∈ list, Normal signature atom) ∧
      (op.properties.isAssociative = true → op.Flat list) := by
  cases h with
  | normal hnormal =>
      cases hnormal with
      | application hop hlist hflat haccepts => exact ⟨_, _, _, _, rfl, rfl, hop, hlist, hflat⟩
  | run hop hlist hflat => exact ⟨_, _, _, _, rfl, rfl, hop, hlist, hflat⟩

theorem Operator.Flat.of_subset {op : Operator Atom} {list part : List Atom} (h : op.Flat list)
    (hpart : part ⊆ list) : op.Flat part where
  heads atom hatom := h.heads atom (hpart hatom)
  units atom hatom := h.units atom (hpart hatom)
  absorbs atom hatom := h.absorbs atom (hpart hatom)

variable {signature : Operator Atom → Prop} {sources : List Atom}

section

variable {other : Operator Atom} {mark listMark outerMark : Mark} {subjects : List Atom}
  {bound : Bindings} {k : Nat} {runs : List (List Atom)}

theorem wrap_eq (hother : other.Plain) (hlist : ∀ atom ∈ subjects, Normal signature atom)
    (hflat : other.properties.isAssociative = true → other.Flat subjects) {head : Atom}
    {run : List Atom} (hrun : run ⊆ subjects) (hlower : 2 ≤ run.length) :
    (Wrapper.application head other.properties).wrap run =
      .application head (.sequence ⟨other.properties, run⟩ .new) .empty .new := by
  have hnormal := Sequence.ofList_of_normal hother (fun atom hatom => hlist atom (hrun hatom))
    fun hassociative => (hflat hassociative).of_subset hrun
  match run, hlower with
  | first :: second :: rest, _ =>
      rw [← hnormal]
      rfl

theorem wrap_cases (hother : other.Plain)
    (hlist : ∀ atom ∈ subjects, Normal signature atom)
    (hflat : other.properties.isAssociative = true → other.Flat subjects)
    (hinvolved : Involved signature sources (.application (.operator other mark)
      (.sequence ⟨other.properties, subjects⟩ listMark) bound outerMark))
    (harrangement : Arrangement other.properties.isAssociative other.properties.isCommutative
      subjects k runs)
    (hk : other.properties.isAssociative = true → k ≠ 1) {run : List Atom} (hrun : run ∈ runs) :
    (∃ atom ∈ subjects, run = [atom] ∧ Normal signature atom ∧ Involved signature sources atom) ∨
      (other.properties.isAssociative = true ∧ run ⊆ subjects ∧
        (Wrapper.application (.operator other mark) other.properties).wrap run =
          .application (.operator other mark) (.sequence ⟨other.properties, run⟩ .new) .empty .new ∧
        Involved signature sources
          (.application (.operator other mark) (.sequence ⟨other.properties, run⟩ .new) .empty
            .new)) := by
  rcases harrangement.run_cases hk hrun with
    ⟨atom, hatom, rfl⟩ | ⟨hassociative, hlower, hupper, hsub⟩
  · exact Or.inl ⟨atom, hatom, rfl, hlist atom hatom, .element hinvolved hatom⟩
  · have hwrap := @wrap_eq _ _ _ hother hlist hflat (.operator other mark) _ hsub.subset hlower
    refine Or.inr ⟨hassociative, hsub.subset, hwrap, ?_⟩
    rw [← hwrap]
    exact .run hinvolved hsub hlower hupper

theorem subject_of_run (hother : signature other) (hplain : other.Plain)
    (hsubjects : ∀ atom ∈ subjects, Normal signature atom)
    (hflat : other.properties.isAssociative = true → other.Flat subjects)
    (hinvolved : Involved signature sources (.application (.operator other mark)
      (.sequence ⟨other.properties, subjects⟩ listMark) bound outerMark))
    (harrangement : Arrangement other.properties.isAssociative other.properties.isCommutative
      subjects k runs)
    (hk : other.properties.isAssociative = true → k ≠ 1) {run : List Atom} (hrun : run ∈ runs) :
    Subject signature ((Wrapper.application (.operator other mark) other.properties).wrap run) ∧
      Involved signature sources
        ((Wrapper.application (.operator other mark) other.properties).wrap run) := by
  rcases wrap_cases hplain hsubjects hflat hinvolved harrangement hk hrun with
    ⟨atom, -, rfl, hnormal, hatom⟩ | ⟨-, hsub, hwrap, hrunInvolved⟩
  · exact ⟨.normal hnormal, hatom⟩
  · rw [hwrap]
    exact ⟨.run hother (fun atom hatom => hsubjects atom (hsub hatom)) fun hassociative =>
      (hflat hassociative).of_subset hsub, hrunInvolved⟩

end

section

variable {evaluate : GuardEvaluator} {op other : Operator Atom} {mark mark' listMark listMark' :
  Mark} {outerMark outerMark' : Mark} {patterns subjects : List Atom} {bound bound' : Bindings}
  {binds found : Bindings}

theorem exists_runs (hsignature : PlainSignature signature)
    (hcollision : NoCollision (Involved signature sources)) (hop : signature op)
    (hother : signature other)
    (hpattern : Involved signature sources (.application (.operator op mark)
      (.sequence ⟨op.properties, patterns⟩ listMark) bound outerMark))
    (hsubject : Involved signature sources (.application (.operator other mark')
      (.sequence ⟨other.properties, subjects⟩ listMark') bound' outerMark'))
    (hfound : found ∈ (search evaluate
      (.application (.operator op mark) (.sequence ⟨op.properties, patterns⟩ listMark) bound
        outerMark)
      (.application (.operator other mark')
        (.sequence ⟨other.properties, subjects⟩ listMark') bound'
        outerMark') binds).alternatives) :
    found = binds ∧ Atom.SameTerm
        (.application (.operator op mark) (.sequence ⟨op.properties, patterns⟩ listMark) bound
          outerMark)
        (.application (.operator other mark') (.sequence ⟨other.properties, subjects⟩ listMark')
          bound' outerMark') ∨
      op.SameTerm other ∧ ∃ runs, Arrangement other.properties.isAssociative
          other.properties.isCommutative subjects patterns.length runs ∧
        found ∈ (Element.matchAll (listElements evaluate patterns)
          (runs.map (Wrapper.application (.operator other mark') other.properties).wrap)
          binds).alternatives := by
  rcases mem_search_application (hsignature.plain op hop)
    (hsignature.faithful op other hop hother) hfound with ⟨rfl, hbeq⟩ | ⟨hsame, hfound⟩
  · exact Or.inl ⟨rfl, hcollision.sameTerm hpattern hsubject hbeq⟩
  · refine Or.inr ⟨hsame, ?_⟩
    have hruns := Sequence.exists_arrangement
      (fun element hmem => acceptsEquals_of_mem_listElements evaluate hmem)
      (fun _ => by
        rw [map_pattern_listElements]
        exact faithful_of_noCollision hcollision (fun atom => .element hpattern)
          fun atom => .element hsubject) hfound
    simpa using hruns

theorem subject_of_mem_search (hcollision : NoCollision (Involved signature sources)) {head argument
      subject : Atom} (hpattern : Involved signature sources
        (.application head argument bound outerMark)) (hsubject : Subject signature subject)
    (hinvolved : Involved signature sources subject)
    (hfound : found ∈ (search evaluate (.application head argument bound outerMark) subject
      binds).alternatives) :
    ∃ other mark' listMark' outerMark' subjects bound', subject =
        .application (.operator other mark')
          (.sequence ⟨other.properties, subjects⟩ listMark') bound'
          outerMark' ∧ signature other ∧ (∀ atom ∈ subjects, Normal signature atom) ∧
      (other.properties.isAssociative = true → other.Flat subjects) := by
  have hshape : ∃ head' argument' bound' mark', subject =
      .application head' argument' bound' mark' := by
    rw [search_application] at hfound
    rcases mem_ofStructure hfound with ⟨-, hbeq, -⟩ | ⟨-, middle, -, hfound⟩
    · rcases (hcollision.sameTerm hpattern hinvolved hbeq).application with
        ⟨head', argument', bound', mark', heq, -, -⟩
      exact ⟨head', argument', bound', mark', heq⟩
    · unfold applicationParts at hfound
      split at hfound
      · exact ⟨_, _, _, _, rfl⟩
      · cases hfound
  rcases hshape with ⟨head', argument', bound', mark', rfl⟩
  rcases hsubject.of_application with
    ⟨other, otherMark, subjects, listMark', rfl, rfl, hother, hlist, hflat⟩
  exact ⟨_, _, _, _, _, _, rfl, hother, hlist, hflat⟩

end

end Equational
