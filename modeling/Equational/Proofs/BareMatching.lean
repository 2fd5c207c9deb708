import Equational.Proofs.Arrangement

/-!
# Matching bare atoms

Nothing that matching does depends on marks or on the parameters stored in
applications.  A search for bare patterns in a bare subject, under bare
bindings, finds what the search for the patterns themselves finds, made bare,
provided that guards are judged alike.
-/

namespace Equational

open Atom

variable {f : Option String → Option String}

/-!
## Comparisons
-/

namespace Atom

@[simp] theorem beq_bare (a b : Atom) : (bare f a == bare f b) = (a == b) := by
  rw [Bool.eq_iff_iff, beq_iff, beq_iff]
  simp

@[simp] theorem beq_map_bare (value other : Option Atom) :
    (value.map (bare f) == other.map (bare f)) = (value == other) := by
  cases value with
  | none => cases other <;> rfl
  | some a =>
      cases other with
      | none => rfl
      | some b => exact beq_bare a b

@[simp] theorem beq_some_bare (value : Option Atom) (atom : Atom) :
    (value.map (bare f) == some (bare f atom)) = (value == some atom) :=
  beq_map_bare value (some atom)

end Atom

@[simp] theorem PropertySet.beq_bare (properties other : Properties) :
    (properties.bare f == other.bare f) = (properties == other) := by
  have h : ∀ p q : Properties, (p == q) = (p.associative == q.associative &&
      p.commutative == q.commutative && p.idempotent == q.idempotent &&
      p.absorber == q.absorber && p.identity == q.identity) := fun _ _ => rfl
  simp only [h, associative_bare, commutative_bare, idempotent_bare, absorber_bare, identity_bare,
    beq_map_bare]

/-!
## Normal sequences

A pass makes the same of a list before and after it is made bare, so that normalizing does not see
what is not bare.
-/

namespace Atom

mutual

theorem span_bare : ∀ atom : Atom, (bare f atom).span = atom.span
  | typeUniverse _ | root .. | literal .. | var .. | lambda .. | propertySet .. | operator .. |
    application .. => rfl
  | sequence ⟨properties, elements⟩ mark => by
      rw [bare, span, span, listSpan_bare elements]

theorem listSpan_bare : ∀ list : List Atom, listSpan (listBare f list) = listSpan list
  | [] => rfl
  | atom :: rest => by rw [listBare, listSpan, listSpan, span_bare atom, listSpan_bare rest]

end

theorem distinct_map_bare (list : List Atom) :
    distinct (list.map (bare f)) = (distinct list).map (bare f) := by
  have h : ∀ seen, distinctFrom seen (list.map (bare f)) =
      (distinctFrom seen list).map (bare f) := by
    induction list with
    | nil => exact fun _ => rfl
    | cons atom rest ih =>
        intro seen
        rw [List.map_cons, distinctFrom, distinctFrom]
        simp only [key_bare]
        split
        · exact ih seen
        · rw [ih, List.map_cons]
  exact h []

end Atom

namespace Sequence

def Spliced.bare (f : Option String → Option String) : Spliced → Spliced
  | absorbed absorber => absorbed (absorber.bare f)
  | elements list changed => elements (list.map (Atom.bare f)) changed

theorem Spliced.bare_cons (atom : Atom) (rest : Spliced) :
    (rest.cons atom).bare f = (rest.bare f).cons (atom.bare f) := by
  cases rest <;> rfl

theorem Spliced.bare_splice (front : List Atom) (rest : Spliced) :
    (rest.splice front).bare f = (rest.bare f).splice (front.map (Atom.bare f)) := by
  cases rest with
  | absorbed absorber => rfl
  | elements list changed => simp [Spliced.splice, Spliced.bare]

theorem splice_bare (properties : Properties) (list : List Atom) :
    splice (properties.bare f) (list.map (Atom.bare f)) = (splice properties list).bare f := by
  induction list with
  | nil => rfl
  | cons atom rest ih =>
      rw [List.map_cons]
      unfold splice
      simp only [PropertySet.absorber_bare, PropertySet.identity_bare, beq_some_bare, ih]
      split
      · rfl
      · split
        · rw [Spliced.bare_splice]
          rfl
        · cases atom with
          | sequence inner mark =>
              simp only [bare_sequence, Sequence.bare, PropertySet.beq_bare]
              split
              · rw [Spliced.bare_splice]
              · rw [Spliced.bare_cons, bare_sequence]
                rfl
          | operator op mark =>
              rw [Spliced.bare_cons]
              cases op
              rfl
          | _ =>
              rw [Spliced.bare_cons]
              rfl

theorem normalize_bare (properties : Properties) (list : List Atom) :
    normalize (properties.bare f) (list.map (Atom.bare f)) =
      (normalize properties list).map (Atom.bare f) := by
  have hwithin : ∀ passes list,
      normalizeWithin (properties.bare f) passes (list.map (Atom.bare f)) =
        (normalizeWithin properties passes list).map (Atom.bare f) := by
    intro passes
    induction passes with
    | zero => exact fun _ => rfl
    | succ passes ih =>
        intro list
        have hdistinct : (if properties.isIdempotent then distinct (list.map (Atom.bare f))
            else list.map (Atom.bare f)) =
            (if properties.isIdempotent then distinct list else list).map (Atom.bare f) := by
          split
          · exact distinct_map_bare list
          · rfl
        unfold normalizeWithin
        simp only [PropertySet.isIdempotent_bare, PropertySet.isAssociative_bare, hdistinct,
          List.length_map, splice_bare, ih]
        generalize (if properties.isIdempotent then distinct list else list) = shorter
        cases properties.isAssociative with
        | true =>
            simp only [if_true]
            cases splice properties shorter with
            | absorbed absorber => rfl
            | elements next changed =>
                simp only [Spliced.bare, ih]
                exact (apply_ite (List.map (Atom.bare f)) _ _ _).symm
        | false =>
            simp only [Bool.false_eq_true, if_false]
            exact (apply_ite (List.map (Atom.bare f)) _ _ _).symm
  have hspan : listSpan (list.map (Atom.bare f)) = listSpan list := by
    rw [← listBare_eq_map, listSpan_bare]
  unfold normalize
  rw [hspan, hwithin]

theorem ofList_bare (properties : Properties) (list : List Atom) :
    ofList (properties.bare f) (list.map (Atom.bare f)) = (ofList properties list).bare f := by
  rw [ofList, normalize_bare]
  rfl

end Sequence

/-!
## Runs
-/

namespace Wrapper

def bare (f : Option String → Option String) : Wrapper → Wrapper
  | sequence properties => sequence (properties.bare f)
  | application head properties => application (head.bare f) (properties.bare f)

theorem wrap_of_length_ne_one (wrapper : Wrapper) {run : List Atom} (h : run.length ≠ 1) :
    wrapper.wrap run =
      match wrapper with
      | sequence properties => .sequence (.ofList properties run) .new
      | application head properties =>
        .application head (.sequence (.ofList properties run) .new) .empty .new := by
  match run, h with
  | [], _ => rfl
  | _ :: _ :: _, _ => rfl

theorem wrap_bare (wrapper : Wrapper) (run : List Atom) :
    (wrapper.bare f).wrap (run.map (Atom.bare f)) = (wrapper.wrap run).bare f := by
  by_cases hone : run.length = 1
  · rcases List.length_eq_one_iff.mp hone with ⟨atom, rfl⟩
    rfl
  · rw [wrap_of_length_ne_one wrapper hone, wrap_of_length_ne_one _ (by rwa [List.length_map])]
    cases wrapper with
    | sequence properties =>
        simp only [bare]
        rw [Sequence.ofList_bare, bare_sequence]
    | application head properties =>
        simp only [bare]
        rw [Sequence.ofList_bare, bare_application, bare_sequence]

end Wrapper

/-!
## Lists, binding sets and types
-/

namespace Atom

theorem isSome_operator?_bare (f : Option String → Option String) (atom : Atom) :
    (bare f atom).operator?.isSome = atom.operator?.isSome := by
  cases atom with
  | operator op mark =>
      rw [bare_operator]
      rfl
  | _ => simp [operator?, bare]

theorem optionRel_like_iff {value other : Option Atom} :
    Option.Rel (Like f) value other ↔ value.map (bare f) = other.map (bare f) := by
  constructor
  · intro h
    cases h with
    | none => rfl
    | some h => exact congrArg some h
  · intro h
    cases value with
    | none =>
        cases other with
        | none => exact .none
        | some b => cases h
    | some a =>
        cases other with
        | none => cases h
        | some b => exact .some (Option.some.inj h)

theorem Like.type {a b : Atom} (h : Like f a b) : Like f a.type b.type := by
  cases a with
  | typeUniverse mark =>
      rcases h.typeUniverse with ⟨mark', rfl⟩
      exact .refl _
  | root name mark =>
      rcases h.root with ⟨mark', rfl⟩
      exact .refl _
  | literal value type mark =>
      rcases h.literal with ⟨type', mark', rfl, htype⟩
      exact htype
  | var name type guard index mark =>
      rcases h.var with ⟨type', guard', mark', rfl, htype, -⟩
      exact htype
  | lambda parameter body mark =>
      rcases h.lambda with ⟨parameter', body', mark', rfl, -, -⟩
      exact .refl _
  | sequence s mark =>
      rcases h.sequence with ⟨s', mark', rfl, -⟩
      exact .refl _
  | propertySet properties mark =>
      rcases h.propertySet with ⟨properties', mark', rfl, -⟩
      exact .refl _
  | operator op mark =>
      rcases h.operator with ⟨op', mark', rfl, -⟩
      exact .refl _
  | application head argument bound mark =>
      rcases h.application with ⟨head', argument', bound', mark', rfl, hhead, -⟩
      cases head with
      | operator op mark =>
          rcases hhead.operator with ⟨op', mark', rfl, hop⟩
          have hresult : Option.Rel (Like f) op.resultType op'.resultType :=
            optionRel_like_iff.mpr (congrArg Operator.resultType hop)
          rcases op with ⟨name, properties, parameters, resultType, native⟩
          rcases op' with ⟨name', properties', parameters', resultType', native'⟩
          cases hresult with
          | none => exact .refl _
          | some hresult => exact hresult
      | _ =>
          cases head' with
          | operator op' mark' =>
              rcases hhead.symm.operator with ⟨op, mark, heq, -⟩
              cases heq
          | _ => exact .refl _

end Atom

section

variable {α β : Type} {R : α → β → Prop}

theorem exists_split {list : List α} {lists : List (List β)}
    (h : List.Forall₂ R list lists.flatten) :
    ∃ runs : List (List α), runs.flatten = list ∧ List.Forall₂ (List.Forall₂ R) runs lists := by
  induction lists generalizing list with
  | nil =>
      cases h
      exact ⟨[], rfl, List.Forall₂.nil⟩
  | cons first rest ih =>
      rw [List.flatten_cons] at h
      rcases ih (List.forall₂_drop_append _ _ _ h) with ⟨runs, hflatten, hall⟩
      refine ⟨list.take first.length :: runs, ?_,
        List.Forall₂.cons (List.forall₂_take_append _ _ _ h) hall⟩
      rw [List.flatten_cons, hflatten, List.take_append_drop]

theorem forall₂_of_common {γ : Type} {P : α → γ → Prop} {Q : β → γ → Prop}
    {as : List α} {bs : List β} {cs : List γ} (has : List.Forall₂ P as cs)
    (hbs : List.Forall₂ Q bs cs)
    (h : ∀ a ∈ as, ∀ b ∈ bs, ∀ c, P a c → Q b c → R a b) : List.Forall₂ R as bs := by
  induction has generalizing bs with
  | nil =>
      cases hbs
      exact List.Forall₂.nil
  | cons hfirst _ ih =>
      cases hbs with
      | cons hother hrest =>
          refine List.Forall₂.cons (h _ List.mem_cons_self _ List.mem_cons_self _ hfirst hother) ?_
          exact ih hrest fun a ha b hb => h a (List.mem_cons_of_mem _ ha) b
            (List.mem_cons_of_mem _ hb)

end

/-- If two lists have the same elements once these are bare, then one of them can be brought into
the order of the other. -/
theorem exists_order_of_bare {subjects others : List Atom}
    (h : (subjects.map (Atom.bare f)).Perm (others.map (Atom.bare f))) :
    ∃ order : List Atom, order.Perm subjects ∧ List.Forall₂ (Like f) order others := by
  have hbare : List.Forall₂ (fun t atom => t = Atom.bare f atom) (subjects.map (Atom.bare f))
      subjects := by
    rw [List.forall₂_map_left_iff, List.forall₂_same]
    exact fun _ _ => rfl
  rcases List.perm_comp_forall₂ h.symm hbare with ⟨order, horder, hperm⟩
  rw [List.forall₂_map_left_iff] at horder
  exact ⟨order, hperm, horder.flip.imp fun _ _ heq => Eq.symm heq⟩

namespace NameMap

variable {binds other : Bindings}

def Agree (f : Option String → Option String) (binds other : Bindings) : Prop :=
  binds.bare f = other.bare f

theorem Agree.find? (h : Agree f binds other) (name : String) :
    Option.Rel (Like f) (binds.find? name) (other.find? name) := by
  rw [optionRel_like_iff, ← find?_bare, ← find?_bare, h]

theorem Agree.insert (h : Agree f binds other) (name : String) {a b : Atom} (hab : Like f a b) :
    Agree f (binds.insert name a) (other.insert name b) := by
  rw [Agree, bare_insert, bare_insert, h, hab]

theorem Agree.isEmpty (h : Agree f binds other) : binds.isEmpty = other.isEmpty := by
  rw [← isEmpty_bare f binds, h, isEmpty_bare]

theorem Agree.beq (h : Agree f binds other) : (binds == other) = true := by
  have hentries : ∀ entries entries' : List (String × Atom),
      entries.map (fun entry => (entry.1, entry.2.bare f)) =
        entries'.map (fun entry => (entry.1, entry.2.bare f)) → (entries == entries') = true := by
    intro entries
    induction entries with
    | nil =>
        intro entries' hmap
        cases entries' with
        | nil => rfl
        | cons entry rest => cases hmap
    | cons entry rest ih =>
        intro entries' hmap
        cases entries' with
        | nil => cases hmap
        | cons entry' rest' =>
            rw [List.map_cons, List.map_cons] at hmap
            injection hmap with hentry hrest
            injection hentry with hname hatom
            have hboth : (entry == entry') = true := by
              change (entry.1 == entry'.1 && entry.2 == entry'.2) = true
              rw [hname, beq_of_bare_eq hatom]
              simp
            change (entry == entry' && rest == rest') = true
            rw [hboth, ih rest' hrest]
            rfl
  exact hentries _ _ (NameMap.mk.inj h)

end NameMap

/-!
## Matchers for lists

Two matchers agree if they find the same for subjects and under binding sets that are the same
once they are bare.  Going through the same choices on both sides, they find the same in the same
order.
-/

/-- What is found on one side is found on the other, in the same order. -/
def Findings (f : Option String → Option String) (first second : Traced Outcome) : Prop :=
  List.Forall₂ (NameMap.Agree f) first.alternatives second.alternatives

/-- Two matchers find the same for subjects and under binding sets that are the same once they
are bare. -/
def Matcher.Agree (f : Option String → Option String) (search other : Matcher) : Prop :=
  ∀ ⦃subject subject' : Atom⦄, Like f subject subject' → ∀ ⦃binds binds' : Bindings⦄,
    NameMap.Agree f binds binds' → Findings f (search subject binds) (other subject' binds')

/-- Two elements have the same pattern once it is bare, and find the same. -/
structure Element.Agree (f : Option String → Option String) (element other : Element) : Prop where
  pattern : Like f element.pattern other.pattern
  matcher : Matcher.Agree f element.matcher other.matcher

namespace Findings

theorem found {binds binds' : Bindings} (h : NameMap.Agree f binds binds') :
    Findings f (.of (.found binds)) (.of (.found binds')) :=
  .cons h .nil

theorem failed (failure failure' : Failure) :
    Findings f (.of (.failed failure)) (.of (.failed failure')) :=
  .nil

theorem continued {first second : Traced Outcome} {next next' : Bindings → Traced Outcome}
    (h : Findings f first second)
    (hnext : ∀ binds binds', NameMap.Agree f binds binds' →
      Findings f (next binds) (next' binds')) :
    Findings f (first.continued next) (second.continued next') := by
  unfold Findings
  rw [Traced.alternatives_continued, Traced.alternatives_continued]
  exact List.rel_flatMap h hnext

theorem mapFailure {first second : Traced Outcome} (h : Findings f first second)
    (g g' : Failure → Failure) : Findings f (first.mapFailure g) (second.mapFailure g') := by
  unfold Findings
  rwa [Traced.alternatives_mapFailure, Traced.alternatives_mapFailure]

theorem forall₂_flatMap {α : Type} {choices : List α} {found found' : α → List Bindings}
    (h : ∀ choice ∈ choices, List.Forall₂ (NameMap.Agree f) (found choice) (found' choice)) :
    List.Forall₂ (NameMap.Agree f) (choices.flatMap found) (choices.flatMap found') := by
  induction choices with
  | nil => exact .nil
  | cons choice rest ih =>
      rw [List.flatMap_cons, List.flatMap_cons]
      exact List.rel_append (h choice List.mem_cons_self)
        (ih fun c hc => h c (List.mem_cons_of_mem _ hc))

end Findings

namespace Element

variable {elements elements' : List Element} {subjects subjects' : List Atom}
  {binds binds' : Bindings}

theorem findings_matchAll (helements : List.Forall₂ (Agree f) elements elements')
    (hsubjects : List.Forall₂ (Like f) subjects subjects') (hbinds : NameMap.Agree f binds binds') :
    Findings f (matchAll elements subjects binds) (matchAll elements' subjects' binds') := by
  induction helements generalizing subjects subjects' binds binds' with
  | nil =>
      cases hsubjects with
      | nil => exact .found hbinds
      | cons _ _ => exact .failed _ _
  | cons helement _ ih =>
      cases hsubjects with
      | nil => exact .failed _ _
      | cons hsubject hsubjects =>
          unfold Findings
          rw [alternatives_matchAll_cons, alternatives_matchAll_cons]
          exact List.rel_flatMap (helement.matcher hsubject hbinds)
            fun _ _ hfound => ih hsubjects hfound

theorem forall₂_arrange (hsubjects : List.Forall₂ (Like f) subjects subjects') (order : List Nat) :
    List.Forall₂ (Like f) (arrange subjects order) (arrange subjects' order) := by
  refine List.rel_filterMap ?_ (List.forall₂_same.mpr fun i _ => rfl)
  rintro i _ rfl
  rw [optionRel_like_iff, ← List.getElem?_map, ← List.getElem?_map,
    forall₂_like_iff.mp hsubjects]

theorem bindings_matchOrders_agree (helements : List.Forall₂ (Agree f) elements elements')
    (hsubjects : List.Forall₂ (Like f) subjects subjects') (hbinds : NameMap.Agree f binds binds') :
    List.Forall₂ (NameMap.Agree f) (matchOrders elements subjects binds).bindings
      (matchOrders elements' subjects' binds').bindings := by
  rw [bindings_matchOrders, bindings_matchOrders, hsubjects.length_eq]
  exact Findings.forall₂_flatMap fun order _ =>
    findings_matchAll helements (forall₂_arrange hsubjects order) hbinds

theorem forall₂_cut (hsubjects : List.Forall₂ (Like f) subjects subjects') (position : Nat)
    (marks : List Nat) :
    List.Forall₂ (List.Forall₂ (Like f)) (Grouping.cut position marks subjects)
      (Grouping.cut position marks subjects') := by
  induction marks generalizing position subjects subjects' with
  | nil => exact .cons hsubjects .nil
  | cons marker rest ih =>
      exact .cons (List.forall₂_take _ hsubjects) (ih (List.forall₂_drop _ hsubjects) _)

end Element

theorem Wrapper.like_wrap {wrapper wrapper' : Wrapper} (hwrapper : wrapper.bare f = wrapper'.bare f)
    {run run' : List Atom} (hrun : List.Forall₂ (Like f) run run') :
    Like f (wrapper.wrap run) (wrapper'.wrap run') := by
  rw [Like, ← wrap_bare, ← wrap_bare, hwrapper, forall₂_like_iff.mp hrun]

theorem Element.bindings_matchGroupings_agree {wrapper wrapper' : Wrapper}
    {elements elements' : List Element} {subjects subjects' : List Atom} {binds binds' : Bindings}
    (hwrapper : wrapper.bare f = wrapper'.bare f)
    (helements : List.Forall₂ (Agree f) elements elements')
    (hsubjects : List.Forall₂ (Like f) subjects subjects') (hbinds : NameMap.Agree f binds binds') :
    List.Forall₂ (NameMap.Agree f) (matchGroupings wrapper elements subjects binds).bindings
      (matchGroupings wrapper' elements' subjects' binds').bindings := by
  rw [bindings_matchGroupings, bindings_matchGroupings, Grouping.groupings, Grouping.groupings,
    LazyList.toList_map, LazyList.toList_map, helements.length_eq, hsubjects.length_eq,
    List.flatMap_map, List.flatMap_map]
  refine Findings.forall₂_flatMap fun marks _ => findings_matchAll helements ?_ hbinds
  exact List.rel_map (fun _ _ hrun => Wrapper.like_wrap hwrapper hrun)
    (forall₂_cut hsubjects 0 marks)

namespace PropertySet

/-- Two patterns for property sets specify the same laws, by elements that agree. -/
def Agree (f : Option String → Option String) (pattern other : PropertySet Element) : Prop :=
  ∀ law, Option.Rel (Element.Agree f) (pattern.get law) (other.get law)

theorem Agree.specified {pattern other : PropertySet Element} (h : Agree f pattern other) :
    List.Forall₂ (fun entry entry' => entry.1 = entry'.1 ∧ Element.Agree f entry.2 entry'.2)
      pattern.specified other.specified := by
  refine List.rel_filterMap ?_ (List.forall₂_same.mpr fun law _ => rfl)
  rintro law _ rfl
  have hlaw := h law
  simp only
  generalize pattern.get law = element at hlaw ⊢
  generalize other.get law = element' at hlaw ⊢
  cases hlaw with
  | none => exact .none
  | some helement => exact .some ⟨rfl, helement⟩

theorem effective?_agree {subject subject' : Properties} (h : subject.bare f = subject'.bare f)
    (law : Law) : Option.Rel (Like f) (effective? subject law) (effective? subject' law) := by
  have hget : Option.Rel (Like f) (subject.get law) (subject'.get law) := by
    rw [optionRel_like_iff, ← get_bare, ← get_bare, h]
  unfold effective?
  generalize subject.get law = value at hget ⊢
  generalize subject'.get law = value' at hget ⊢
  cases hget with
  | some hvalue => exact .some hvalue
  | none =>
      cases law.isBoolean with
      | true => exact .some (.refl _)
      | false => exact .none

theorem effectives_agree {subject subject' : Properties} (h : subject.bare f = subject'.bare f)
    {laws laws' : List (Law × Element)}
    (hlaws : List.Forall₂ (fun entry entry' => entry.1 = entry'.1 ∧
      Element.Agree f entry.2 entry'.2) laws laws') :
    (∃ atoms atoms', effectives subject laws = .ok atoms ∧ effectives subject' laws' = .ok atoms' ∧
        List.Forall₂ (Like f) atoms atoms') ∨
      ∃ failure failure', effectives subject laws = .error failure ∧
        effectives subject' laws' = .error failure' := by
  induction hlaws with
  | nil => exact Or.inl ⟨[], [], rfl, rfl, .nil⟩
  | @cons entry entry' rest rest' hentry _ ih =>
      rcases entry with ⟨law, element⟩
      rcases entry' with ⟨law', element'⟩
      rcases hentry with ⟨heq, -⟩
      simp only at heq
      subst heq
      have heffective := effective?_agree h law
      unfold effectives
      generalize effective? subject law = value at heffective ⊢
      generalize effective? subject' law = value' at heffective ⊢
      cases heffective with
      | none => exact Or.inr ⟨_, _, rfl, rfl⟩
      | some hvalue =>
          rcases ih with ⟨atoms, atoms', hok, hok', hatoms⟩ | ⟨failure, failure', herror, herror'⟩
          · simp only [hok, hok']
            exact Or.inl ⟨_, _, rfl, rfl, .cons hvalue hatoms⟩
          · simp only [herror, herror']
            exact Or.inr ⟨_, _, rfl, rfl⟩

theorem findings_matchLaws {pattern other : PropertySet Element} (hpattern : Agree f pattern other)
    {subject subject' : Properties} (hsubject : subject.bare f = subject'.bare f)
    {binds binds' : Bindings} (hbinds : NameMap.Agree f binds binds') :
    Findings f (pattern.matchLaws subject binds) (other.matchLaws subject' binds') := by
  unfold matchLaws
  rcases effectives_agree hsubject hpattern.specified with
    ⟨atoms, atoms', hok, hok', hatoms⟩ | ⟨failure, failure', herror, herror'⟩
  · rw [hok, hok']
    exact Element.findings_matchAll (List.rel_map (fun _ _ h => h.2) hpattern.specified)
      hatoms hbinds
  · rw [herror, herror']
    exact .failed _ _

end PropertySet

/-!
## Elimination
-/

namespace Elimination

theorem pair_bare (patterns subjects : List Atom) (positions candidates : List Nat)
    (taken : Taken) :
    pair (patterns.map (Atom.bare f)) (subjects.map (Atom.bare f)) positions candidates taken =
      pair patterns subjects positions candidates taken := by
  induction positions generalizing candidates taken with
  | nil => rfl
  | cons p ps ih =>
      unfold pair
      rw [List.getElem?_map]
      cases patterns[p]? with
      | none => exact ih candidates taken
      | some pattern =>
          have hcandidates : ∀ s : Nat,
              ((subjects.map (Atom.bare f))[s]?.any (· == pattern.bare f)) =
                subjects[s]?.any (· == pattern) := by
            intro s
            rw [List.getElem?_map, Option.any_map]
            congr 1
            funext subject
            exact beq_bare subject pattern
          simp only [Option.map_some, hcandidates, isStructured_bare, ih]

theorem pairAll_bare (patterns subjects : List Atom) (pool entries : Sequence.Pool)
    (taken : Taken) :
    pairAll (patterns.map (Atom.bare f)) (subjects.map (Atom.bare f)) pool entries taken =
      pairAll patterns subjects pool entries taken := by
  induction entries generalizing taken with
  | nil => rfl
  | cons entry rest ih =>
      unfold pairAll
      simp only [pair_bare, ih]

theorem constantPool_bare (list : List Atom) :
    Sequence.constantPool (list.map (Atom.bare f)) = Sequence.constantPool list := by
  unfold Sequence.constantPool
  rw [List.zipIdx_map, List.foldl_map]
  simp only [Prod.map, isConstant_bare, fingerprint_bare, id]

theorem forall₂_remaining {α β : Type} {R : α → β → Prop} {list : List α} {other : List β}
    (h : List.Forall₂ R list other) (taken : List Nat) :
    List.Forall₂ R (remaining taken list) (remaining taken other) := by
  have hentries : ∀ n, List.Forall₂ (fun entry entry' => R entry.1 entry'.1 ∧ entry.2 = entry'.2)
      (list.zipIdx n) (other.zipIdx n) := by
    induction h with
    | nil => exact fun _ => .nil
    | cons hfirst _ ih => exact fun n => .cons ⟨hfirst, rfl⟩ (ih (n + 1))
  refine List.rel_map (fun _ _ h => h.1) (List.rel_filter ?_ (hentries 0))
  rintro entry entry' ⟨-, hposition⟩
  simp only [hposition]

end Elimination

namespace Sequence

variable {elements elements' : List Element} {subjects subjects' : Sequence Atom}
  {binds binds' : Bindings}

theorem forall₂_elements (h : subjects.bare f = subjects'.bare f) :
    List.Forall₂ (Like f) subjects.elements subjects'.elements :=
  forall₂_like_iff.mpr (congrArg Sequence.elements h)

theorem length_eq_of_bare_eq (h : subjects.bare f = subjects'.bare f) :
    subjects.length = subjects'.length :=
  (forall₂_elements h).length_eq

theorem eliminateConstants_agree (helements : List.Forall₂ (Element.Agree f) elements elements')
    (hsubjects : subjects.bare f = subjects'.bare f) :
    (∃ left left', (eliminateConstants elements subjects).value = .ok left ∧
        (eliminateConstants elements' subjects').value = .ok left' ∧
        List.Forall₂ (Element.Agree f) left.1 left'.1 ∧ List.Forall₂ (Like f) left.2 left'.2) ∨
      ∃ failure failure', (eliminateConstants elements subjects).value = .error failure ∧
        (eliminateConstants elements' subjects').value = .error failure' := by
  have hatoms := forall₂_elements hsubjects
  have hpatterns : List.Forall₂ (Like f) (elements.map (·.pattern)) (elements'.map (·.pattern)) :=
    List.rel_map (fun _ _ h => h.pattern) helements
  have hpairs : Elimination.pairAll (elements.map (·.pattern)) subjects.elements
      (constantPool subjects.elements) (constantPool (elements.map (·.pattern))) ⟨[], []⟩ =
      Elimination.pairAll (elements'.map (·.pattern)) subjects'.elements
      (constantPool subjects'.elements) (constantPool (elements'.map (·.pattern))) ⟨[], []⟩ := by
    rw [← Elimination.pairAll_bare (f := f), ← Elimination.constantPool_bare (f := f),
      ← Elimination.constantPool_bare (f := f) (elements.map (·.pattern)),
      forall₂_like_iff.mp hatoms, forall₂_like_iff.mp hpatterns, Elimination.pairAll_bare,
      Elimination.constantPool_bare, Elimination.constantPool_bare]
  unfold eliminateConstants
  simp only [hpairs]
  cases Elimination.pairAll (elements'.map (·.pattern)) subjects'.elements
      (constantPool subjects'.elements) (constantPool (elements'.map (·.pattern))) ⟨[], []⟩ with
  | ok taken =>
      exact Or.inl ⟨_, _, rfl, rfl, Elimination.forall₂_remaining helements _,
        Elimination.forall₂_remaining hatoms _⟩
  | error p =>
      refine Or.inr ?_
      have hpattern : Option.Rel (Like f) (elements.map (·.pattern))[p]?
          (elements'.map (·.pattern))[p]? := by
        rw [optionRel_like_iff, ← List.getElem?_map, ← List.getElem?_map,
          forall₂_like_iff.mp hpatterns]
      simp only
      generalize (elements.map (·.pattern))[p]? = pattern at hpattern ⊢
      generalize (elements'.map (·.pattern))[p]? = pattern' at hpattern ⊢
      cases hpattern with
      | none => exact ⟨_, _, rfl, rfl⟩
      | some _ => exact ⟨_, _, rfl, rfl⟩

theorem findings_firstOf {first second : Stream} (failure failure' : Failure)
    (h : List.Forall₂ (NameMap.Agree f) first.bindings second.bindings) :
    Findings f (Outcome.firstOf failure first) (Outcome.firstOf failure' second) := by
  unfold Findings
  rwa [Outcome.alternatives_firstOf, Outcome.alternatives_firstOf]

theorem findings_matchCommutative (helements : List.Forall₂ (Element.Agree f) elements elements')
    (hsubjects : subjects.bare f = subjects'.bare f) (hbinds : NameMap.Agree f binds binds') :
    Findings f (matchCommutative elements subjects binds)
      (matchCommutative elements' subjects' binds') := by
  unfold matchCommutative
  rw [helements.length_eq, length_eq_of_bare_eq hsubjects]
  split
  · unfold Findings
    rw [Traced.alternatives_andThen, Traced.alternatives_andThen]
    rcases eliminateConstants_agree helements hsubjects with
      ⟨left, left', hok, hok', hpatterns, hatoms⟩ | ⟨failure, failure', herror, herror'⟩
    · rw [hok, hok']
      exact findings_firstOf _ _ (Element.bindings_matchOrders_agree hpatterns hatoms hbinds)
    · rw [herror, herror']
      exact .nil
  · exact .failed _ _

section

variable {wrapper wrapper' : Wrapper}

theorem findings_matchArrangements (hwrapper : wrapper.bare f = wrapper'.bare f)
    (helements : List.Forall₂ (Element.Agree f) elements elements') {atoms atoms' : List Atom}
    (hatoms : List.Forall₂ (Like f) atoms atoms') (hbinds : NameMap.Agree f binds binds') :
    Findings f (matchArrangements wrapper elements atoms binds)
      (matchArrangements wrapper' elements' atoms' binds') := by
  unfold matchArrangements
  simp only [helements.length_eq, hatoms.length_eq]
  split
  · split
    · exact .found hbinds
    · exact .failed _ _
  · split
    · exact .failed _ _
    · split
      · exact findings_firstOf _ _ (Element.bindings_matchOrders_agree helements hatoms hbinds)
      · refine findings_firstOf _ _ ?_
        rw [Stream.bindings_flatMap, Stream.bindings_flatMap]
        exact Findings.forall₂_flatMap fun order _ =>
          Element.bindings_matchGroupings_agree hwrapper helements
            (Element.forall₂_arrange hatoms order) hbinds

theorem findings_matchAssociativeCommutative (hwrapper : wrapper.bare f = wrapper'.bare f)
    (helements : List.Forall₂ (Element.Agree f) elements elements')
    (hsubjects : subjects.bare f = subjects'.bare f) (hbinds : NameMap.Agree f binds binds') :
    Findings f (matchAssociativeCommutative wrapper elements subjects binds)
      (matchAssociativeCommutative wrapper' elements' subjects' binds') := by
  unfold matchAssociativeCommutative Findings
  rw [Traced.alternatives_andThen, Traced.alternatives_andThen]
  rcases eliminateConstants_agree helements hsubjects with
    ⟨left, left', hok, hok', hpatterns, hatoms⟩ | ⟨failure, failure', herror, herror'⟩
  · rw [hok, hok']
    exact findings_matchArrangements hwrapper hpatterns hatoms hbinds
  · rw [herror, herror']
    exact .nil

theorem findings_matchAssociative (hwrapper : wrapper.bare f = wrapper'.bare f)
    (helements : List.Forall₂ (Element.Agree f) elements elements')
    (hsubjects : subjects.bare f = subjects'.bare f) (hbinds : NameMap.Agree f binds binds') :
    Findings f (matchAssociative wrapper elements subjects binds)
      (matchAssociative wrapper' elements' subjects' binds') := by
  have hatoms := forall₂_elements hsubjects
  unfold matchAssociative
  simp only [helements.length_eq, length_eq_of_bare_eq hsubjects]
  split
  · exact Element.findings_matchAll helements hatoms hbinds
  · split
    · exact .failed _ _
    · exact findings_firstOf _ _
        (Element.bindings_matchGroupings_agree hwrapper helements hatoms hbinds)

theorem findings_matchElements (hwrapper : wrapper.bare f = wrapper'.bare f)
    (helements : List.Forall₂ (Element.Agree f) elements elements')
    (hsubjects : subjects.bare f = subjects'.bare f) (hbinds : NameMap.Agree f binds binds') :
    Findings f (matchElements wrapper elements subjects binds)
      (matchElements wrapper' elements' subjects' binds') := by
  have hproperties : subjects.properties.bare f = subjects'.properties.bare f :=
    congrArg Sequence.properties hsubjects
  have hassociative : subjects.properties.isAssociative = subjects'.properties.isAssociative := by
    rw [← PropertySet.isAssociative_bare f, hproperties, PropertySet.isAssociative_bare]
  have hcommutative : subjects.properties.isCommutative = subjects'.properties.isCommutative := by
    rw [← PropertySet.isCommutative_bare f, hproperties, PropertySet.isCommutative_bare]
  unfold matchElements
  simp only [helements.length_eq, length_eq_of_bare_eq hsubjects, hassociative, hcommutative]
  split
  · split
    · exact findings_matchCommutative helements hsubjects hbinds
    · exact Element.findings_matchAll helements (forall₂_elements hsubjects) hbinds
  · split
    · split
      · exact findings_matchAssociativeCommutative hwrapper helements hsubjects hbinds
      · exact findings_matchAssociative hwrapper helements hsubjects hbinds
    · exact .failed _ _

theorem findings_matchUnder (hwrapper : wrapper.bare f = wrapper'.bare f)
    {pattern other : Sequence Element}
    (hlaws : PropertySet.Agree f pattern.properties other.properties)
    (helements : List.Forall₂ (Element.Agree f) pattern.elements other.elements)
    (hsubjects : subjects.bare f = subjects'.bare f) (hbinds : NameMap.Agree f binds binds') :
    Findings f (matchUnder wrapper pattern subjects binds)
      (matchUnder wrapper' other subjects' binds') := by
  unfold matchUnder
  refine Findings.continued (Findings.mapFailure ?_ _ _) fun _ _ hfound =>
    findings_matchElements hwrapper helements hsubjects hfound
  exact PropertySet.findings_matchLaws hlaws (congrArg Sequence.properties hsubjects) hbinds

end

end Sequence

/-!
## Evaluations
-/

/-- Two evaluations have values that go together, or fail both. -/
inductive Results {α β : Type} (R : α → β → Prop) :
    Except TermError α → Except TermError β → Prop where
  | ok {a : α} {b : β} (h : R a b) : Results R (.ok a) (.ok b)
  | error (error error' : TermError) : Results R (.error error) (.error error')

def GuardEvaluator.Agree (f : Option String → Option String) (evaluate other : GuardEvaluator) :
    Prop :=
  ∀ ⦃binds binds' : Bindings⦄, NameMap.Agree f binds binds' → ∀ ⦃atom atom' : Atom⦄,
    Like f atom atom' → Results (Like f) (evaluate binds atom).result (other binds' atom').result

/-!
## Atoms

The search of an atom is followed through its parts, with the guards left to what evaluates them.
-/

namespace Matcher

theorem agree_always : Agree f always always :=
  fun _ _ _ _ _ hbinds => .found hbinds

theorem agree_watched {pattern pattern' : Atom} {search other : Matcher}
    (h : Agree f search other) : Agree f (watched pattern search) (watched pattern' other) :=
  fun _ _ hsubject _ _ hbinds => h hsubject hbinds

theorem agree_anyType : Agree f anyType anyType := agree_watched agree_always

theorem findings_failBetween (reason reason' : Reason) (pattern pattern' subject subject' : Atom) :
    Findings f (failBetween reason pattern subject) (failBetween reason' pattern' subject') :=
  .nil

section

variable {pattern pattern' : Atom}

theorem agree_ofBound (h : Like f pattern pattern') :
    Agree f (ofBound pattern) (ofBound pattern') := by
  intro subject subject' hsubject binds binds' hbinds
  unfold ofBound
  rw [beq_congr h hsubject]
  split
  · exact .found hbinds
  · exact .failed _ _

theorem agree_ofLeaf (h : Like f pattern pattern') :
    Agree f (ofLeaf pattern) (ofLeaf pattern') := by
  intro subject subject' hsubject binds binds' hbinds
  unfold ofLeaf
  rw [beq_congr h hsubject]
  split
  · exact .found hbinds
  · exact .failed _ _

theorem agree_bind {evaluate other : GuardEvaluator} (hevaluate : evaluate.Agree f other)
    (name : String) {guard guard' : Option Atom} (hguard : Option.Rel (Like f) guard guard') :
    Agree f (bind evaluate pattern name guard) (bind other pattern' name guard') := by
  intro subject subject' hsubject binds binds' hbinds
  have hinsert := hbinds.insert name hsubject
  have hfind := hbinds.find? name
  unfold bind
  generalize binds.find? name = found at hfind ⊢
  generalize binds'.find? name = found' at hfind ⊢
  cases hfind with
  | some hexisting =>
      simp only [beq_congr hexisting hsubject]
      split
      · exact .found hbinds
      · exact findings_failBetween _ _ _ _ _ _
  | none =>
      cases hguard with
      | none => exact .found hinsert
      | some hcondition =>
          have hresult := hevaluate hinsert hcondition
          unfold Findings
          simp only [Traced.alternatives_andThen, Traced.ofEvaluation]
          generalize (evaluate _ _).result = result at hresult ⊢
          generalize (other _ _).result = result' at hresult ⊢
          cases hresult with
          | error error error' => exact .nil
          | ok hatom =>
              simp only [hatom.bool?]
              split
              · exact .cons hinsert .nil
              · exact .nil

theorem agree_ofFree {evaluate other : GuardEvaluator} (hevaluate : evaluate.Agree f other)
    (hpattern : Like f pattern pattern') (name : String) {guard guard' : Option Atom}
    (hguard : Option.Rel (Like f) guard guard') {type type' : Matcher}
    (htype : Agree f type type') :
    Agree f (ofFree evaluate pattern name guard type)
      (ofFree other pattern' name guard' type') := by
  intro subject subject' hsubject binds binds' hbinds
  unfold ofFree
  rw [beq_congr hpattern hsubject]
  split
  · have hfind := hbinds.find? name
    generalize binds.find? name = found at hfind ⊢
    generalize binds'.find? name = found' at hfind ⊢
    cases hfind with
    | none => exact .found hbinds
    | some hexisting =>
        simp only [beq_congr hexisting hsubject]
        split
        · exact .found hbinds
        · exact findings_failBetween _ _ _ _ _ _
  · exact Findings.continued (Findings.mapFailure (htype hsubject.type hbinds) _ _)
      fun _ _ hfound => agree_bind hevaluate name hguard hsubject hfound

theorem agree_ofStructure (hpattern : Like f pattern pattern') {type type' parts parts' : Matcher}
    (htype : Agree f type type') (hparts : Agree f parts parts') :
    Agree f (ofStructure pattern type parts) (ofStructure pattern' type' parts') := by
  intro subject subject' hsubject binds binds' hbinds
  have hmatch : Findings f
      (if subject.depth < pattern.depth then failBetween .patternDeeper pattern subject
        else ((type subject.type binds).mapFailure fun failure =>
            (Failure.between .typesDiffer pattern subject).causedBy failure)
          |>.continued fun binds => parts subject binds)
      (if subject'.depth < pattern'.depth then failBetween .patternDeeper pattern' subject'
        else ((type' subject'.type binds').mapFailure fun failure =>
            (Failure.between .typesDiffer pattern' subject').causedBy failure)
          |>.continued fun binds => parts' subject' binds) := by
    rw [hsubject.depth, hpattern.depth]
    split
    · exact findings_failBetween _ _ _ _ _ _
    · exact Findings.continued (Findings.mapFailure (htype hsubject.type hbinds) _ _)
        fun _ _ hfound => hparts hsubject hfound
  unfold ofStructure
  simp only [hpattern.isConstant, beq_congr hpattern hsubject, hpattern.isStructured]
  split
  · split
    · exact .found hbinds
    · split
      · exact hmatch
      · exact findings_failBetween _ _ _ _ _ _
  · exact hmatch

/-!
### Parts of atoms
-/

theorem agree_lambdaParts {parameter parameter' body body' : Element}
    (hparameter : Element.Agree f parameter parameter') (hbody : Element.Agree f body body') :
    Agree f (lambdaParts pattern parameter body) (lambdaParts pattern' parameter' body') := by
  intro subject subject' hsubject binds binds' hbinds
  cases subject with
  | lambda subjectParameter subjectBody mark =>
      rcases hsubject.lambda with ⟨parameter₂, body₂, mark', rfl, hfirst, hsecond⟩
      exact Element.findings_matchAll (.cons hparameter (.cons hbody .nil))
        (.cons hfirst (.cons hsecond .nil)) hbinds
  | _ =>
      cases subject' with
      | lambda subjectParameter subjectBody mark =>
          rcases hsubject.symm.lambda with ⟨parameter₂, body₂, mark', heq, -⟩
          cases heq
      | _ => exact findings_failBetween _ _ _ _ _ _

theorem agree_sequenceParts {elements elements' : Sequence Element}
    (hlaws : PropertySet.Agree f elements.properties elements'.properties)
    (helements : List.Forall₂ (Element.Agree f) elements.elements elements'.elements) :
    Agree f (sequenceParts pattern elements) (sequenceParts pattern' elements') := by
  intro subject subject' hsubject binds binds' hbinds
  cases subject with
  | sequence s mark =>
      rcases hsubject.sequence with ⟨s', mark', rfl, hs⟩
      have hwrapper : (Wrapper.sequence s.properties).bare f =
          (Wrapper.sequence s'.properties).bare f :=
        congrArg Wrapper.sequence (congrArg Sequence.properties hs)
      exact Sequence.findings_matchUnder hwrapper hlaws helements hs hbinds
  | _ =>
      cases subject' with
      | sequence s mark =>
          rcases hsubject.symm.sequence with ⟨s', mark', heq, -⟩
          cases heq
      | _ => exact findings_failBetween _ _ _ _ _ _

theorem agree_propertyParts {laws laws' : PropertySet Element}
    (hlaws : PropertySet.Agree f laws laws') :
    Agree f (propertyParts pattern laws) (propertyParts pattern' laws') := by
  intro subject subject' hsubject binds binds' hbinds
  cases subject with
  | propertySet properties mark =>
      rcases hsubject.propertySet with ⟨properties', mark', rfl, hproperties⟩
      exact PropertySet.findings_matchLaws hlaws hproperties hbinds
  | _ =>
      cases subject' with
      | propertySet properties mark =>
          rcases hsubject.symm.propertySet with ⟨properties', mark', heq, -⟩
          cases heq
      | _ => exact findings_failBetween _ _ _ _ _ _

def ArgumentsAgree (f : Option String → Option String) :
    Option (Sequence Element) → Option (Sequence Element) → Prop :=
  Option.Rel fun s s' => PropertySet.Agree f s.properties s'.properties ∧
    List.Forall₂ (Element.Agree f) s.elements s'.elements

theorem agree_applicationParts {head head' argument argument' : Matcher}
    (hhead : Agree f head head') (hargument : Agree f argument argument')
    {elements elements' : Option (Sequence Element)}
    (helements : ArgumentsAgree f elements elements') :
    Agree f (applicationParts pattern head argument elements)
      (applicationParts pattern' head' argument' elements') := by
  intro subject subject' hsubject binds binds' hbinds
  cases subject with
  | application subjectHead subjectArgument bound mark =>
      rcases hsubject.application with
        ⟨subjectHead', subjectArgument', bound', mark', rfl, hsubjectHead, hsubjectArgument⟩
      unfold applicationParts
      refine Findings.continued (Findings.mapFailure (hhead hsubjectHead hbinds) _ _) ?_
      intro found found' hfound
      cases helements with
      | none => exact hargument hsubjectArgument hfound
      | some hboth =>
          cases subjectArgument with
          | sequence s mark =>
              rcases hsubjectArgument.sequence with ⟨s', mark', rfl, hs⟩
              have hproperties : s.properties.bare f = s'.properties.bare f :=
                congrArg Sequence.properties hs
              refine Sequence.findings_matchUnder ?_ hboth.1 hboth.2 hs hfound
              have hoperator : subjectHead.operator?.isSome = subjectHead'.operator?.isSome := by
                rw [← isSome_operator?_bare f subjectHead, hsubjectHead, isSome_operator?_bare]
              rw [hoperator]
              split
              · exact congrArg₂ Wrapper.application hsubjectHead hproperties
              · exact congrArg Wrapper.sequence hproperties
          | _ =>
              cases subjectArgument' with
              | sequence s mark =>
                  rcases hsubjectArgument.symm.sequence with ⟨s', mark', heq, -⟩
                  cases heq
              | _ => exact hargument hsubjectArgument hfound
  | _ =>
      cases subject' with
      | application subjectHead subjectArgument bound mark =>
          rcases hsubject.symm.application with ⟨head₂, argument₂, bound', mark', heq, -⟩
          cases heq
      | _ => exact findings_failBetween _ _ _ _ _ _

end

end Matcher

namespace Atom

open Matcher

variable {evaluate other : GuardEvaluator}

mutual

theorem agree_search (hevaluate : evaluate.Agree f other) : ∀ (pattern : Atom) {pattern' : Atom},
    Like f pattern pattern' → Matcher.Agree f (search evaluate pattern) (search other pattern')
  | typeUniverse mark, _, h => by
      rcases h.typeUniverse with ⟨mark', rfl⟩
      rw [search_typeUniverse, search_typeUniverse]
      exact agree_ofLeaf h
  | root name mark, _, h => by
      rcases h.root with ⟨mark', rfl⟩
      rw [search_root, search_root, h.isAny]
      split
      · exact agree_always
      · exact agree_ofLeaf h
  | literal value type mark, _, h => by
      rcases h.literal with ⟨type', mark', rfl, -⟩
      rw [search_literal, search_literal]
      exact agree_ofLeaf h
  | operator op mark, _, h => by
      rcases h.operator with ⟨op', mark', rfl, -⟩
      rw [search_operator, search_operator]
      exact agree_ofLeaf h
  | var name type guard index mark, _, h => by
      rcases h.var with ⟨type', guard', mark', rfl, htype, hguard⟩
      rw [search_var, search_var]
      split
      · exact agree_ofBound h
      · exact agree_ofFree hevaluate h name (optionRel_like_iff.mpr hguard)
          (agree_watched (agree_search hevaluate type htype))
  | lambda parameter body mark, _, h => by
      rcases h.lambda with ⟨parameter', body', mark', rfl, hparameter, hbody⟩
      rw [search_lambda, search_lambda]
      exact agree_ofStructure h agree_anyType (agree_lambdaParts
        ⟨hparameter, agree_watched (agree_search hevaluate parameter hparameter)⟩
        ⟨hbody, agree_watched (agree_search hevaluate body hbody)⟩)
  | sequence ⟨properties, elements⟩ mark, _, h => by
      rcases h.sequence with ⟨⟨properties', elements'⟩, mark', rfl, hs⟩
      rw [search_sequence, search_sequence]
      exact agree_ofStructure h agree_anyType (agree_sequenceParts
        (agree_lawElements hevaluate properties (congrArg Sequence.properties hs))
        (agree_listElements hevaluate elements
          (forall₂_like_iff.mpr (congrArg Sequence.elements hs))))
  | propertySet properties mark, _, h => by
      rcases h.propertySet with ⟨properties', mark', rfl, hproperties⟩
      rw [search_propertySet, search_propertySet]
      exact agree_ofStructure h agree_anyType
        (agree_propertyParts (agree_lawElements hevaluate properties hproperties))
  | application head argument bound mark, _, h => by
      rcases h.application with ⟨head', argument', bound', mark', rfl, hhead, hargument⟩
      rw [search_application, search_application]
      exact agree_ofStructure h (agree_headType hevaluate head hhead) (agree_applicationParts
        (agree_watched (agree_search hevaluate head hhead))
        (agree_watched (agree_search hevaluate argument hargument))
        (agree_argumentElements hevaluate argument hargument))

theorem agree_headType (hevaluate : evaluate.Agree f other) : ∀ (head : Atom) {head' : Atom},
    Like f head head' → Matcher.Agree f (headType evaluate head) (headType other head')
  | operator ⟨name, properties, parameters, some result, native⟩ mark, _, h => by
      rcases h.operator with ⟨⟨name', properties', parameters', result', native'⟩, mark', rfl, hop⟩
      have hresult : (some result).map (bare f) = result'.map (bare f) :=
        congrArg Operator.resultType hop
      rcases Option.map_eq_some_iff.mp hresult.symm with ⟨result', rfl, hlike⟩
      exact agree_watched (agree_search hevaluate result hlike.symm)
  | operator ⟨name, properties, parameters, none, native⟩ mark, _, h => by
      rcases h.operator with ⟨⟨name', properties', parameters', result', native'⟩, mark', rfl, hop⟩
      have hresult : none = result'.map (bare f) := congrArg Operator.resultType hop
      rw [Option.map_eq_none_iff.mp hresult.symm]
      exact agree_anyType
  | typeUniverse _, head', h | root _ _, head', h | literal _ _ _, head', h
  | var _ _ _ _ _, head', h | lambda _ _ _, head', h | sequence _ _, head', h
  | propertySet _ _, head', h | application _ _ _ _, head', h => by
      cases head' with
      | operator op mark =>
          rcases h.symm.operator with ⟨op', mark', heq, -⟩
          cases heq
      | _ => exact agree_anyType

theorem agree_argumentElements (hevaluate : evaluate.Agree f other) :
    ∀ (argument : Atom) {argument' : Atom}, Like f argument argument' →
      ArgumentsAgree f (argumentElements evaluate argument) (argumentElements other argument')
  | sequence ⟨properties, elements⟩ mark, _, h => by
      rcases h.sequence with ⟨⟨properties', elements'⟩, mark', rfl, hs⟩
      exact .some ⟨agree_lawElements hevaluate properties (congrArg Sequence.properties hs),
        agree_listElements hevaluate elements
          (forall₂_like_iff.mpr (congrArg Sequence.elements hs))⟩
  | typeUniverse _, argument', h | root _ _, argument', h | literal _ _ _, argument', h
  | var _ _ _ _ _, argument', h | lambda _ _ _, argument', h | operator _ _, argument', h
  | propertySet _ _, argument', h | application _ _ _ _, argument', h => by
      cases argument' with
      | sequence s mark =>
          rcases h.symm.sequence with ⟨s', mark', heq, -⟩
          cases heq
      | _ => exact .none

theorem agree_listElements (hevaluate : evaluate.Agree f other) : ∀ (list : List Atom)
    {list' : List Atom}, List.Forall₂ (Like f) list list' →
      List.Forall₂ (Element.Agree f) (listElements evaluate list) (listElements other list')
  | [], _, .nil => .nil
  | atom :: rest, _, .cons hatom hrest =>
      .cons ⟨hatom, agree_watched (agree_search hevaluate atom hatom)⟩
        (agree_listElements hevaluate rest hrest)

theorem agree_optionElement (hevaluate : evaluate.Agree f other) : ∀ (value : Option Atom)
    {value' : Option Atom}, value.map (bare f) = value'.map (bare f) →
      Option.Rel (Element.Agree f) (optionElement evaluate value) (optionElement other value')
  | none, _, h => by
      rw [Option.map_eq_none_iff.mp h.symm]
      exact .none
  | some atom, _, h => by
      rcases Option.map_eq_some_iff.mp h.symm with ⟨atom', rfl, hatom⟩
      exact .some ⟨hatom.symm, agree_watched (agree_search hevaluate atom hatom.symm)⟩

theorem agree_lawElements (hevaluate : evaluate.Agree f other) : ∀ (properties : PropertySet Atom)
    {properties' : PropertySet Atom}, properties.bare f = properties'.bare f →
      PropertySet.Agree f (lawElements evaluate properties) (lawElements other properties')
  | ⟨a, c, i, b, d⟩, ⟨a', c', i', b', d'⟩, h => by
      have hget : ∀ law, ((⟨a, c, i, b, d⟩ : Properties).get law).map (bare f) =
          ((⟨a', c', i', b', d'⟩ : Properties).get law).map (bare f) := by
        intro law
        rw [← PropertySet.get_bare, ← PropertySet.get_bare, h]
      intro law
      cases law with
      | associative => exact agree_optionElement hevaluate a (hget .associative)
      | commutative => exact agree_optionElement hevaluate c (hget .commutative)
      | idempotent => exact agree_optionElement hevaluate i (hget .idempotent)
      | absorber => exact agree_optionElement hevaluate b (hget .absorber)
      | identity => exact agree_optionElement hevaluate d (hget .identity)

end

end Atom

end Equational
