import Equational.Proofs.NormalTerms

/-!
# Normal lists

Every pass of normalization that changes a list makes its span smaller, so the
bound on the number of passes is never felt: the normal form is a fixed point
of a pass, and may be computed from the list after any pass.  It follows that
an associative operator, which drops identities and duplicates before it looks
for its absorber, hands on the elements that the normal sequence of its
arguments has.
-/

namespace Equational

/-!
## The first of equal atoms
-/

namespace Atom

theorem distinctFrom_sublist (seen : List (Nat × Digest)) (list : List Atom) :
    (distinctFrom seen list).Sublist list := by
  induction list generalizing seen with
  | nil => exact .slnil
  | cons atom rest ih =>
      rw [distinctFrom]
      split
      · exact (ih seen).cons atom
      · exact (ih _).cons_cons atom

theorem distinct_sublist (list : List Atom) : (distinct list).Sublist list :=
  distinctFrom_sublist [] list

theorem distinct_of_pairwise {list : List Atom} (h : list.Pairwise fun a b => (a == b) = false) :
    distinct list = list := by
  have hfrom : ∀ seen : List (Nat × Digest), (∀ atom ∈ list, seen.contains atom.key = false) →
      distinctFrom seen list = list := by
    induction list with
    | nil => exact fun _ _ => rfl
    | cons atom rest ih =>
        intro seen hseen
        rw [List.pairwise_cons] at h
        have hparts := List.forall_mem_cons.mp hseen
        simp only [distinctFrom, hparts.1, Bool.false_eq_true, if_false]
        rw [ih h.2 (atom.key :: seen)]
        intro other hother
        have hdiffer : (other.key == atom.key) = false := by
          rw [BEq.comm, ← beq_eq_key_beq]
          exact h.1 other hother
        rw [List.contains_cons, hdiffer, Bool.false_or]
        exact hparts.2 other hother
  exact hfrom [] fun _ _ => rfl

theorem pairwise_of_distinct {list : List Atom} (h : distinct list = list) :
    list.Pairwise fun a b => (a == b) = false := by
  have hfrom : ∀ seen : List (Nat × Digest), distinctFrom seen list = list →
      (∀ atom ∈ list, seen.contains atom.key = false) ∧
        list.Pairwise fun a b => (a == b) = false := by
    clear h
    induction list with
    | nil => exact fun _ _ => ⟨List.forall_mem_nil _, .nil⟩
    | cons atom rest ih =>
        intro seen h
        rw [distinctFrom] at h
        split at h
        · have hlength := (distinctFrom_sublist seen rest).length_le
          rw [h, List.length_cons] at hlength
          omega
        · rename_i hseen
          rcases ih (atom.key :: seen) (List.cons.inj h).2 with ⟨hrest, hpairwise⟩
          simp only [List.contains_cons, Bool.or_eq_false_iff] at hrest
          refine ⟨List.forall_mem_cons.mpr ⟨Bool.eq_false_iff.mpr hseen,
            fun other hother => (hrest other hother).2⟩, List.pairwise_cons.mpr ⟨?_, hpairwise⟩⟩
          intro other hother
          rw [beq_eq_key_beq, BEq.comm]
          exact (hrest other hother).1
  exact (hfrom [] h).2

theorem distinct_distinct (list : List Atom) : distinct (distinct list) = distinct list := by
  have h : ∀ seen, distinctFrom seen (distinctFrom seen list) = distinctFrom seen list := by
    induction list with
    | nil => exact fun _ => rfl
    | cons atom rest ih =>
        intro seen
        rw [distinctFrom]
        split
        · exact ih seen
        · rename_i hnew
          rw [distinctFrom]
          simp only [hnew, if_false, ih, Bool.false_eq_true]
  exact h []

theorem distinct_filter {p : Atom → Bool} (hp : ∀ a b : Atom, a.key = b.key → p a = p b)
    (list : List Atom) : distinct (list.filter p) = (distinct list).filter p := by
  have h : ∀ seen seen' : List (Nat × Digest),
      (∀ atom : Atom, p atom = true → seen.contains atom.key = seen'.contains atom.key) →
      distinctFrom seen (list.filter p) = (distinctFrom seen' list).filter p := by
    induction list with
    | nil => exact fun _ _ _ => rfl
    | cons atom rest ih =>
        intro seen seen' hseen
        cases hatom : p atom with
        | true =>
            rw [List.filter_cons_of_pos hatom, distinctFrom, distinctFrom, hseen atom hatom]
            split
            · exact ih seen seen' hseen
            · rw [List.filter_cons_of_pos hatom, ih (atom.key :: seen) (atom.key :: seen')]
              intro other hother
              rw [List.contains_cons, List.contains_cons, hseen other hother]
        | false =>
            rw [List.filter_cons_of_neg (by rw [hatom]; decide), distinctFrom]
            split
            · exact ih seen seen' hseen
            · rw [List.filter_cons_of_neg (by rw [hatom]; decide)]
              apply ih
              intro other hother
              have hne : (other.key == atom.key) = false := by
                rw [beq_eq_false_iff_ne]
                intro hkey
                rw [hp other atom hkey, hatom] at hother
                cases hother
              rw [List.contains_cons, hne, Bool.false_or, hseen other hother]
  exact h [] [] fun _ _ => rfl

/-!
## Spans

Every atom that is left out makes the span smaller, and so does every nested sequence that gives
way to its elements.
-/

theorem span_pos (atom : Atom) : 0 < atom.span := by
  cases atom with
  | sequence s mark =>
      cases s
      exact Nat.succ_pos _
  | _ => exact Nat.one_pos

theorem listSpan_append (list other : List Atom) :
    listSpan (list ++ other) = listSpan list + listSpan other := by
  induction list with
  | nil => rw [List.nil_append, listSpan, Nat.zero_add]
  | cons atom rest ih => rw [List.cons_append, listSpan, listSpan, ih, Nat.add_assoc]

theorem span_sequence (s : Sequence Atom) (mark : Mark) :
    (sequence s mark).span = listSpan s.elements + 1 := by
  cases s
  rfl

theorem listSpan_add_length_le {list other : List Atom} (h : list.Sublist other) :
    listSpan list + other.length ≤ listSpan other + list.length := by
  induction h with
  | slnil => exact Nat.le_refl _
  | cons atom _ ih =>
      have hpos := atom.span_pos
      rw [listSpan, List.length_cons]
      omega
  | cons_cons atom _ ih =>
      rw [listSpan, listSpan, List.length_cons, List.length_cons]
      omega

end Atom

namespace Sequence

open Atom

variable {properties : Properties}

/-!
## One pass

What ends a pass is an element that equals the absorber.  Else it leaves elements of a smaller
span, or the list as it is.
-/

/-- The list without later duplicates, if the law of idempotence holds. -/
def pruned (properties : Properties) (list : List Atom) : List Atom :=
  if properties.isIdempotent then distinct list else list

theorem pruned_sublist (properties : Properties) (list : List Atom) :
    (pruned properties list).Sublist list := by
  unfold pruned
  split
  · exact distinct_sublist list
  · exact List.Sublist.refl list

@[simp] theorem pruned_pruned (properties : Properties) (list : List Atom) :
    pruned properties (pruned properties list) = pruned properties list := by
  unfold pruned
  split
  · exact distinct_distinct list
  · rfl

theorem pruned_filter {p : Atom → Bool} (hp : ∀ a b : Atom, a.key = b.key → p a = p b)
    (list : List Atom) :
    pruned properties (list.filter p) = (pruned properties list).filter p := by
  unfold pruned
  split
  · exact distinct_filter hp list
  · rfl

@[simp] theorem pruned_singleton (atom : Atom) : pruned properties [atom] = [atom] := by
  unfold pruned
  split <;> rfl

/-- What a pass puts in the place of an element that is not the absorber, if it does not keep it. -/
def opened (properties : Properties) (atom : Atom) : Option (List Atom) :=
  if properties.identity == some atom then some []
  else (atom.sequence?.filter fun inner => inner.properties == properties).map (·.elements)

theorem listSpan_opened {atom : Atom} {front : List Atom}
    (h : opened properties atom = some front) : listSpan front < atom.span := by
  unfold opened at h
  split at h
  · cases h
    exact atom.span_pos
  · rcases Option.map_eq_some_iff.mp h with ⟨inner, hinner, rfl⟩
    have hsequence := Option.eq_some_of_filter_eq_some hinner
    cases atom with
    | sequence s mark =>
        cases hsequence
        rw [span_sequence]
        exact Nat.lt_succ_self _
    | _ => cases hsequence

variable {atom : Atom} {rest : List Atom}

theorem splice_cons_absorber (h : (properties.absorber == some atom) = true) :
    splice properties (atom :: rest) = .absorbed atom := by
  cases atom <;> exact if_pos h

theorem splice_cons (h : (properties.absorber == some atom) = false) :
    splice properties (atom :: rest) =
      (opened properties atom).elim ((splice properties rest).cons atom)
        (splice properties rest).splice := by
  conv_lhs => unfold splice
  unfold opened
  simp only [h, Bool.false_eq_true, if_false]
  split
  · rfl
  · cases atom with
    | sequence s mark =>
        simp only [sequence?, Option.filter_some]
        split <;> rfl
    | _ => rfl

theorem splice_cons_opened {front : List Atom} (h : (properties.absorber == some atom) = false)
    (hopened : opened properties atom = some front) :
    splice properties (atom :: rest) = (splice properties rest).splice front := by
  rw [splice_cons h, hopened, Option.elim_some]

theorem splice_cons_kept (h : (properties.absorber == some atom) = false)
    (hopened : opened properties atom = none) :
    splice properties (atom :: rest) = (splice properties rest).cons atom := by
  rw [splice_cons h, hopened, Option.elim_none]

namespace Spliced

variable {tail : Spliced} {absorber : Atom} {next : List Atom} {changed : Bool}

theorem cons_eq_absorbed (h : tail.cons atom = absorbed absorber) : tail = absorbed absorber := by
  cases tail with
  | absorbed other => exact h
  | elements list flag => cases h

theorem splice_eq_absorbed {front : List Atom} (h : tail.splice front = absorbed absorber) :
    tail = absorbed absorber := by
  cases tail with
  | absorbed other => exact h
  | elements list flag => cases h

theorem cons_eq_elements (h : tail.cons atom = elements next changed) :
    ∃ list, tail = elements list changed ∧ next = atom :: list := by
  cases tail with
  | absorbed other => cases h
  | elements list flag =>
      cases h
      exact ⟨list, rfl, rfl⟩

theorem splice_eq_elements {front : List Atom} (h : tail.splice front = elements next changed) :
    ∃ list flag, tail = elements list flag ∧ next = front ++ list ∧ changed = true := by
  cases tail with
  | absorbed other => cases h
  | elements list flag =>
      cases h
      exact ⟨list, flag, rfl, rfl, rfl⟩

def outcome : Spliced → Except Atom (List Atom)
  | absorbed absorber => .error absorber
  | elements list _ => .ok list

theorem outcome_cons (atom : Atom) (tail : Spliced) :
    (tail.cons atom).outcome = tail.outcome.map (atom :: ·) := by
  cases tail <;> rfl

theorem outcome_splice (front : List Atom) (tail : Spliced) :
    (tail.splice front).outcome = tail.outcome.map (front ++ ·) := by
  cases tail <;> rfl

end Spliced

theorem absorber_of_splice {list : List Atom} {absorber : Atom}
    (h : splice properties list = .absorbed absorber) :
    (properties.absorber == some absorber) = true ∧ absorber ∈ list := by
  induction list with
  | nil => cases h
  | cons atom rest ih =>
      cases habsorber : properties.absorber == some atom with
      | true =>
          rw [splice_cons_absorber habsorber] at h
          cases h
          exact ⟨habsorber, List.mem_cons_self⟩
      | false =>
          have hrest : splice properties rest = .absorbed absorber := by
            cases hopened : opened properties atom with
            | some front =>
                rw [splice_cons_opened habsorber hopened] at h
                exact Spliced.splice_eq_absorbed h
            | none =>
                rw [splice_cons_kept habsorber hopened] at h
                exact Spliced.cons_eq_absorbed h
          exact ⟨(ih hrest).1, List.mem_cons_of_mem _ (ih hrest).2⟩

theorem listSpan_splice {list next : List Atom} {changed : Bool}
    (h : splice properties list = .elements next changed) :
    (changed = true ∧ listSpan next < listSpan list) ∨ (changed = false ∧ next = list) := by
  induction list generalizing next changed with
  | nil =>
      cases h
      exact .inr ⟨rfl, rfl⟩
  | cons atom rest ih =>
      cases habsorber : properties.absorber == some atom with
      | true =>
          rw [splice_cons_absorber habsorber] at h
          cases h
      | false =>
          cases hopened : opened properties atom with
          | some front =>
              rw [splice_cons_opened habsorber hopened] at h
              rcases Spliced.splice_eq_elements h with ⟨tail, flag, htail, rfl, hchanged⟩
              have hfront := listSpan_opened hopened
              rw [listSpan_append, listSpan]
              rcases ih htail with ⟨-, hlt⟩ | ⟨-, rfl⟩
              · exact .inl ⟨hchanged, by omega⟩
              · exact .inl ⟨hchanged, by omega⟩
          | none =>
              rw [splice_cons_kept habsorber hopened] at h
              rcases Spliced.cons_eq_elements h with ⟨tail, htail, rfl⟩
              rw [listSpan, listSpan]
              rcases ih htail with ⟨hchanged, hlt⟩ | ⟨hchanged, rfl⟩
              · exact .inl ⟨hchanged, by omega⟩
              · exact .inr ⟨hchanged, rfl⟩

/-!
## All passes

A bound on the number of passes is not felt if it exceeds the span.
-/

theorem listSpan_pruned_lt {list : List Atom}
    (h : ((pruned properties list).length != list.length) = true) :
    listSpan (pruned properties list) < listSpan list := by
  have hsublist := pruned_sublist properties list
  have hspan := listSpan_add_length_le hsublist
  have hlength := hsublist.length_le
  rw [bne_iff_ne] at h
  omega

theorem pruned_eq_self {list : List Atom}
    (h : ((pruned properties list).length != list.length) = false) :
    pruned properties list = list := by
  rw [bne_eq_false_iff_eq] at h
  exact (pruned_sublist properties list).eq_of_length h

/-- What the passes make of a list: the absorber alone, or the list itself if nothing changes, or
what they make of a list of smaller span. -/
theorem normalizeWithin_cases (hassociative : properties.isAssociative = true)
    (list : List Atom) :
    (∃ absorber, splice properties (pruned properties list) = .absorbed absorber ∧
        ∀ passes, normalizeWithin properties (passes + 1) list = [absorber]) ∨
      (pruned properties list = list ∧ splice properties list = .elements list false ∧
        ∀ passes, normalizeWithin properties (passes + 1) list = list) ∨
      ∃ next changed, splice properties (pruned properties list) = .elements next changed ∧
        listSpan next < listSpan list ∧
        ∀ passes, normalizeWithin properties (passes + 1) list =
          normalizeWithin properties passes next := by
  have hpruned : (if properties.isIdempotent then distinct list else list) =
      pruned properties list := rfl
  simp only [normalizeWithin, hpruned, hassociative, if_true]
  cases hsplice : splice properties (pruned properties list) with
  | absorbed absorber => exact .inl ⟨absorber, rfl, fun _ => rfl⟩
  | elements next changed =>
      have hnext := listSpan_splice hsplice
      cases hshorter : (pruned properties list).length != list.length with
      | true =>
          have hlt := listSpan_pruned_lt hshorter
          refine .inr (.inr ⟨next, changed, rfl, ?_, fun _ => rfl⟩)
          rcases hnext with ⟨-, hspan⟩ | ⟨-, rfl⟩
          · exact Nat.lt_trans hspan hlt
          · exact hlt
      | false =>
          rw [pruned_eq_self hshorter] at hsplice hnext ⊢
          rcases hnext with ⟨rfl, hspan⟩ | ⟨rfl, rfl⟩
          · exact .inr (.inr ⟨next, true, rfl, hspan, fun _ => rfl⟩)
          · exact .inr (.inl ⟨rfl, hsplice, fun _ => rfl⟩)

theorem normalizeWithin_of_not_associative (hassociative : properties.isAssociative = false)
    (passes : Nat) (list : List Atom) :
    normalizeWithin properties (passes + 1) list = pruned properties list := by
  have hpruned : ∀ list, (if properties.isIdempotent then distinct list else list) =
      pruned properties list := fun _ => rfl
  have hsucc : ∀ passes list, normalizeWithin properties (passes + 1) list =
      if (pruned properties list).length != list.length then
        normalizeWithin properties passes (pruned properties list)
      else pruned properties list := by
    intro passes list
    simp only [normalizeWithin, hpruned, hassociative, Bool.false_eq_true, if_false]
  induction passes generalizing list with
  | zero =>
      rw [hsucc]
      split <;> rfl
  | succ passes ih =>
      rw [hsucc, ih, pruned_pruned]
      split <;> rfl

theorem normalizeWithin_eq {passes more : Nat} {list : List Atom} (hpasses : listSpan list < passes)
    (hmore : listSpan list < more) :
    normalizeWithin properties passes list = normalizeWithin properties more list := by
  induction passes generalizing more list with
  | zero => exact absurd hpasses (Nat.not_lt_zero _)
  | succ passes ih =>
      cases more with
      | zero => exact absurd hmore (Nat.not_lt_zero _)
      | succ more =>
          cases hassociative : properties.isAssociative with
          | true =>
              rcases normalizeWithin_cases hassociative list with
                ⟨absorber, -, h⟩ | ⟨-, -, h⟩ | ⟨next, changed, -, hspan, h⟩
              · rw [h, h]
              · rw [h, h]
              · rw [h, h]
                exact ih (by omega) (by omega)
          | false =>
              rw [normalizeWithin_of_not_associative hassociative,
                normalizeWithin_of_not_associative hassociative]

/-!
## Normal forms

The normal form of a list is that of what a pass leaves, so it does not tell two lists apart of
which a pass leaves the same.  A list in normal form is its own normal form.
-/

theorem normalize_of_not_associative (hassociative : properties.isAssociative = false)
    (list : List Atom) : normalize properties list = pruned properties list :=
  normalizeWithin_of_not_associative hassociative _ list

/-- A pass either settles a list or leaves one of smaller span that has the same normal form. -/
theorem normalize_cases (hassociative : properties.isAssociative = true) (list : List Atom) :
    (∃ absorber, splice properties (pruned properties list) = .absorbed absorber ∧
        normalize properties list = [absorber]) ∨
      (pruned properties list = list ∧ splice properties list = .elements list false ∧
        normalize properties list = list) ∨
      ∃ next changed, splice properties (pruned properties list) = .elements next changed ∧
        listSpan next < listSpan list ∧ normalize properties list = normalize properties next := by
  rcases normalizeWithin_cases hassociative list with
    ⟨absorber, hsplice, h⟩ | ⟨hpruned, hsplice, h⟩ | ⟨next, changed, hsplice, hspan, h⟩
  · exact .inl ⟨absorber, hsplice, h _⟩
  · exact .inr (.inl ⟨hpruned, hsplice, h _⟩)
  · refine .inr (.inr ⟨next, changed, hsplice, hspan, (h _).trans ?_⟩)
    exact normalizeWithin_eq hspan (Nat.lt_succ_self _)

theorem normalize_eq (hassociative : properties.isAssociative = true) (list : List Atom) :
    (∃ absorber, (splice properties (pruned properties list)).outcome = .error absorber ∧
        normalize properties list = [absorber]) ∨
      ∃ next, (splice properties (pruned properties list)).outcome = .ok next ∧
        normalize properties list = normalize properties next := by
  rcases normalize_cases hassociative list with
    ⟨absorber, hsplice, h⟩ | ⟨hpruned, hsplice, -⟩ | ⟨next, changed, hsplice, -, h⟩
  · exact .inl ⟨absorber, by rw [hsplice, Spliced.outcome], h⟩
  · exact .inr ⟨list, by rw [hpruned, hsplice, Spliced.outcome], rfl⟩
  · exact .inr ⟨next, by rw [hsplice, Spliced.outcome], h⟩

theorem normalize_congr (hassociative : properties.isAssociative = true) {list other : List Atom}
    (h : (splice properties (pruned properties list)).outcome =
      (splice properties (pruned properties other)).outcome) :
    normalize properties list = normalize properties other := by
  rcases normalize_eq hassociative list with ⟨absorber, hlist, hnormal⟩ | ⟨next, hlist, hnormal⟩
  all_goals rcases normalize_eq hassociative other with
    ⟨absorber', hother, hnormal'⟩ | ⟨next', hother, hnormal'⟩
  all_goals rw [hlist, hother] at h
  · rw [hnormal, hnormal', Except.error.inj h]
  · cases h
  · cases h
  · rw [hnormal, hnormal', Except.ok.inj h]

theorem normalize_absorber (hassociative : properties.isAssociative = true) {absorber : Atom}
    (h : (properties.absorber == some absorber) = true) :
    normalize properties [absorber] = [absorber] := by
  have hsplice := @splice_cons_absorber _ _ [] h
  rcases normalize_cases hassociative [absorber] with
    ⟨other, hother, hnormal⟩ | ⟨-, -, hnormal⟩ | ⟨next, changed, hother, -, -⟩
  · rw [pruned_singleton, hsplice] at hother
    rw [hnormal, Spliced.absorbed.inj hother]
  · exact hnormal
  · rw [pruned_singleton, hsplice] at hother
    cases hother

theorem normalize_normalize (properties : Properties) (list : List Atom) :
    normalize properties (normalize properties list) = normalize properties list := by
  cases hassociative : properties.isAssociative with
  | false => simp only [normalize_of_not_associative hassociative, pruned_pruned]
  | true =>
      -- on the span: every pass that changes the list makes it smaller
      induction hspan : listSpan list using Nat.strongRecOn generalizing list with
      | ind span ih =>
          rcases normalize_cases hassociative list with
            ⟨absorber, hsplice, h⟩ | ⟨-, -, h⟩ | ⟨next, changed, -, hnext, h⟩
          · rw [h]
            exact normalize_absorber hassociative (absorber_of_splice hsplice).1
          · rw [h, h]
          · rw [h]
            exact ih (listSpan next) (hspan ▸ hnext) next rfl

/-!
## Identities and absorbers

A pass drops the identities that are still there.  So the normal form does not tell whether
identities and duplicates were dropped before, unless the identity is the absorber and would have
ended the pass.
-/

def Separate (properties : Properties) : Prop :=
  ∀ absorber identity, properties.absorber = some absorber → properties.identity = some identity →
    (absorber == identity) = false

theorem Separate.of_absorber (h : Separate properties) {atom : Atom}
    (habsorber : (properties.absorber == some atom) = true) :
    (properties.identity == some atom) = false := by
  rw [Operator.any_beq_comm, Option.any_eq_true] at habsorber
  rw [Operator.any_beq_comm, Option.any_eq_false]
  rcases habsorber with ⟨absorber, hsome, hequal⟩
  intro identity hidentity
  cases hboth : atom == identity with
  | false => rfl
  | true =>
      rw [← h absorber identity hsome hidentity]
      exact (beq_trans (beq_symm hequal) hboth).symm

theorem outcome_splice_filter (h : Separate properties) (list : List Atom) :
    (splice properties (list.filter fun atom => !(properties.identity == some atom))).outcome =
      (splice properties list).outcome := by
  induction list with
  | nil => rfl
  | cons atom rest ih =>
      cases habsorber : properties.absorber == some atom with
      | true =>
          rw [List.filter_cons_of_pos (by rw [h.of_absorber habsorber]; rfl),
            splice_cons_absorber habsorber, splice_cons_absorber habsorber]
      | false =>
          cases hidentity : properties.identity == some atom with
          | true =>
              rw [List.filter_cons_of_neg (by rw [hidentity]; decide), ih,
                splice_cons_opened habsorber (if_pos hidentity), Spliced.outcome_splice]
              cases (splice properties rest).outcome <;> rfl
          | false =>
              rw [List.filter_cons_of_pos (by rw [hidentity]; rfl)]
              cases hopened : opened properties atom with
              | some front =>
                  rw [splice_cons_opened habsorber hopened, splice_cons_opened habsorber hopened,
                    Spliced.outcome_splice, Spliced.outcome_splice, ih]
              | none =>
                  rw [splice_cons_kept habsorber hopened, splice_cons_kept habsorber hopened,
                    Spliced.outcome_cons, Spliced.outcome_cons, ih]

theorem normalize_pruned_filter (hassociative : properties.isAssociative = true)
    (h : Separate properties) (list : List Atom) :
    normalize properties (pruned properties
      (list.filter fun atom => !(properties.identity == some atom))) =
        normalize properties list := by
  apply normalize_congr hassociative
  rw [pruned_pruned, pruned_filter, outcome_splice_filter h]
  intro a b hkey
  rw [Operator.any_beq_comm, Operator.any_beq_comm]
  simp only [beq_eq_key_beq, hkey]

theorem normalize_of_absorber (hassociative : properties.isAssociative = true) {list : List Atom}
    (hpruned : pruned properties list = list) {atom : Atom} (hmem : atom ∈ list)
    (h : (properties.absorber == some atom) = true) :
    ∃ absorber, (properties.absorber == some absorber) = true ∧
      normalize properties list = [absorber] := by
  have habsorbed : ∃ absorber, splice properties list = .absorbed absorber := by
    clear hpruned
    induction list with
    | nil => cases hmem
    | cons first rest ih =>
        cases hfirst : properties.absorber == some first with
        | true => exact ⟨first, splice_cons_absorber hfirst⟩
        | false =>
            have hrest : atom ∈ rest := by
              rcases List.mem_cons.mp hmem with rfl | hrest
              · rw [h] at hfirst
                cases hfirst
              · exact hrest
            rcases ih hrest with ⟨absorber, htail⟩
            refine ⟨absorber, ?_⟩
            cases hopened : opened properties first with
            | some front => rw [splice_cons_opened hfirst hopened, htail, Spliced.splice]
            | none => rw [splice_cons_kept hfirst hopened, htail, Spliced.cons]
  rcases habsorbed with ⟨absorber, hsplice⟩
  refine ⟨absorber, (absorber_of_splice hsplice).1, ?_⟩
  rcases normalize_eq hassociative list with ⟨other, hother, hnormal⟩ | ⟨next, hnext, -⟩
  · rw [hpruned, hsplice] at hother
    rw [hnormal, Except.error.inj hother]
  · rw [hpruned, hsplice] at hnext
    cases hnext

theorem normalize_of_kept (hassociative : properties.isAssociative = true) {list : List Atom}
    (hpruned : pruned properties list = list)
    (h : ∀ atom ∈ list, (properties.absorber == some atom) = false ∧
      opened properties atom = none) :
    normalize properties list = list := by
  have hsplice : splice properties list = .elements list false := by
    clear hpruned
    induction list with
    | nil => rfl
    | cons atom rest ih =>
        rcases h atom List.mem_cons_self with ⟨habsorber, hopened⟩
        have hrest := ih fun other hother => h other (List.mem_cons_of_mem _ hother)
        rw [splice_cons_kept habsorber hopened, hrest, Spliced.cons]
  rcases normalize_cases hassociative list with
    ⟨absorber, habsorbed, -⟩ | ⟨-, -, hnormal⟩ | ⟨next, changed, hnext, hspan, -⟩
  · rw [hpruned, hsplice] at habsorbed
    cases habsorbed
  · exact hnormal
  · rw [hpruned, hsplice] at hnext
    cases hnext
    exact absurd hspan (Nat.lt_irrefl _)

end Sequence

/-!
## Associative operators
-/

namespace Operator

variable {op : Operator Atom} {list : List Atom}

/-- The arguments that are left of a list: those that are not the identity, without later
duplicates if the operator is idempotent. -/
def remaining (op : Operator Atom) (list : List Atom) : List Atom :=
  Sequence.pruned op.properties (list.filter (!op.isUnit ·))

def nests (op : Operator Atom) (atom : Atom) : Bool :=
  atom.sequence?.any (·.properties == op.properties)

/-- What an associative operator without evaluation gives for the arguments that are left: the
absorber if it is among them, the identity for none, a single one itself, and else an
application. -/
inductive Gives (op : Operator Atom) (arguments : List Atom) : Atom → Prop
  | absorber {atom absorber : Atom} (hatom : atom ∈ arguments) (habsorbs : op.absorbs atom = true)
      (hdeclared : op.properties.absorber = some absorber) : Gives op arguments absorber
  | identity {identity : Atom} (hnone : arguments = [])
      (hdeclared : op.properties.identity = some identity) : Gives op arguments identity
  | argument {argument : Atom} (habsorbs : op.absorbs argument = false)
      (hsingle : arguments = [argument]) : Gives op arguments argument
  | application (habsorbs : ∀ atom ∈ arguments, op.absorbs atom = false)
      (hlength : arguments.length ≠ 1) (hidentity : arguments = [] → op.properties.identity = none)
      (bound : Bindings) : Gives op arguments (op.assembled arguments bound)

/-- The result belongs to the normal sequence of the list: it is its single element, the identity
if it is empty, and else the application to it. -/
structure Normalized (op : Operator Atom) (list : List Atom) (result : Atom) : Prop where
  single : ∀ atom, Sequence.normalize op.properties list = [atom] → (result == atom) = true
  empty : Sequence.normalize op.properties list = [] →
    ∀ identity, op.properties.identity = some identity → (result == identity) = true
  several : (Sequence.normalize op.properties list).length ≠ 1 →
    (Sequence.normalize op.properties list = [] → op.properties.identity = none) →
    ∃ bound, result = .application (.operator op .new)
      (.sequence ⟨op.properties, Sequence.normalize op.properties list⟩ .new) bound .new

theorem simplify_eq (op : Operator Atom) (list : List Atom) :
    op.simplify list = op.remaining (op.flatten list) := by
  unfold simplify remaining isUnit Sequence.pruned
  cases op.properties.identity with
  | none => simp
  | some identity => rfl

theorem simplify_eq_remaining (hheads : ∀ atom ∈ list, op.heads atom = false) :
    op.simplify list = op.remaining list := by
  have hflatten : op.flatten list = list := by
    rw [flatten_eq_flatMap,
      List.flatMap_congr fun atom hatom => pieces_of_heads_eq_false (hheads atom hatom)]
    exact List.flatMap_singleton' list
  rw [simplify_eq, hflatten]

theorem remaining_eq (op : Operator Atom) (list : List Atom) : op.remaining list =
    Sequence.pruned op.properties
      (list.filter fun atom => !(op.properties.identity == some atom)) := by
  unfold remaining isUnit
  simp only [any_beq_comm]

theorem mem_of_mem_remaining {atom : Atom} (h : atom ∈ op.remaining list) :
    atom ∈ list ∧ op.isUnit atom = false := by
  have hfilter := (Sequence.pruned_sublist op.properties _).subset h
  rw [List.mem_filter, Bool.not_eq_true'] at hfilter
  exact hfilter

theorem kept_of_not_nests {atom : Atom} (habsorbs : op.absorbs atom = false)
    (hunit : op.isUnit atom = false) (hnests : op.nests atom = false) :
    (op.properties.absorber == some atom) = false ∧ Sequence.opened op.properties atom = none := by
  rw [absorbs, ← any_beq_comm] at habsorbs
  rw [isUnit, ← any_beq_comm] at hunit
  rw [nests, Option.any_eq_false] at hnests
  refine ⟨habsorbs, ?_⟩
  rw [Sequence.opened, if_neg (Bool.eq_false_iff.mp hunit), Option.map_eq_none_iff,
    Option.filter_eq_none_iff]
  exact fun inner hinner => Bool.eq_false_iff.mp (hnests inner hinner)

section

variable {natives : Natives} {evaluate : GuardEvaluator} {result : Atom}

theorem gives_of_applyAssociative (hnative : op.native = none)
    (hresult : (op.applyAssociative natives evaluate list).result = .ok result) :
    op.Gives (op.simplify list) result := by
  rcases applyAssociative_inv hresult with ⟨atom, hatom, habsorbs, hdeclared⟩ |
    ⟨habsorbs, ⟨hnone, hdeclared⟩ | hsingle | ⟨hlength, hidentity, padded, -, hdispatch⟩⟩
  · exact .absorber hatom habsorbs hdeclared
  · exact .identity hnone hdeclared
  · exact .argument (habsorbs _ (by rw [hsingle]; exact List.mem_cons_self)) hsingle
  · rw [dispatch_eq_ok_iff hnative] at hdispatch
    rcases hdispatch with ⟨bound, -, rfl⟩
    exact .application habsorbs hlength hidentity bound

end

/-- What is given for the arguments that are left belongs to the normal sequence of the list, unless
a nested sequence is opened in it. -/
theorem Gives.normalized {result : Atom} (h : op.Gives (op.remaining list) result)
    (hassociative : op.properties.isAssociative = true)
    (hseparate : Sequence.Separate op.properties)
    (hnests : ∀ atom ∈ list, op.nests atom = false) : op.Normalized list result := by
  have hnormal := Sequence.normalize_pruned_filter hassociative hseparate list
  rw [← remaining_eq] at hnormal
  have hpruned : Sequence.pruned op.properties (op.remaining list) = op.remaining list :=
    Sequence.pruned_pruned _ _
  have hkept : (∀ atom ∈ op.remaining list, op.absorbs atom = false) →
      Sequence.normalize op.properties list = op.remaining list := by
    intro habsorbs
    rw [← hnormal]
    apply Sequence.normalize_of_kept hassociative hpruned
    intro atom hatom
    rcases mem_of_mem_remaining hatom with ⟨hmem, hunit⟩
    exact kept_of_not_nests (habsorbs atom hatom) hunit (hnests atom hmem)
  cases h with
  | absorber hatom habsorbs hdeclared =>
      rw [absorbs, ← any_beq_comm] at habsorbs
      rcases Sequence.normalize_of_absorber hassociative hpruned hatom habsorbs with
        ⟨absorber, habsorber, hsingle⟩
      rw [hnormal] at hsingle
      have hequal : ∀ atom, Sequence.normalize op.properties list = [atom] →
          (result == atom) = true := by
        intro atom hnormalized
        rw [← List.singleton_inj.mp (hsingle.symm.trans hnormalized)]
        rw [hdeclared] at habsorber
        exact habsorber
      refine ⟨hequal, ?_, ?_⟩
      · intro hnone
        rw [hsingle] at hnone
        cases hnone
      · intro hlength
        rw [hsingle] at hlength
        exact absurd rfl hlength
  | identity hnone hdeclared =>
      have hlist := hkept (by simp [hnone])
      rw [hnone] at hlist
      refine ⟨?_, ?_, ?_⟩
      · intro atom hsingle
        rw [hlist] at hsingle
        cases hsingle
      · intro _ identity hidentity
        rw [Option.some.inj (hdeclared.symm.trans hidentity)]
        exact Atom.beq_refl identity
      · intro _ hidentity
        rw [hidentity hlist] at hdeclared
        cases hdeclared
  | argument habsorbs hsingle =>
      have hlist := hkept (by simpa [hsingle] using habsorbs)
      rw [hsingle] at hlist
      refine ⟨?_, ?_, ?_⟩
      · intro atom hnormalized
        rw [List.singleton_inj.mp (hlist.symm.trans hnormalized)]
        exact Atom.beq_refl atom
      · intro hnone
        rw [hlist] at hnone
        cases hnone
      · intro hlength
        rw [hlist] at hlength
        exact absurd rfl hlength
  | application habsorbs hlength hidentity bound =>
      have hlist := hkept habsorbs
      refine ⟨?_, ?_, ?_⟩
      · intro atom hsingle
        rw [← hlist, hsingle] at hlength
        exact absurd rfl hlength
      · intro hnone identity hdeclared
        rw [hidentity (hlist.symm.trans hnone)] at hdeclared
        cases hdeclared
      · intro _ _
        exact ⟨bound, by rw [assembled, Sequence.ofList, hnormal]⟩

end Operator

namespace Engine

/-- The two normalizers agree.  An associative operator without evaluation gives what is due to the
arguments that are left of a list.  If its identity is not its absorber, these have the normal form
of the whole list; and if no argument is a sequence of the properties of the operator, the result
belongs to that normal form. -/
theorem apply_normalized {engine : Engine} {op : Operator Atom} {mark listMark : Mark}
    {list : List Atom} {result : Atom} (hassociative : op.properties.isAssociative = true)
    (hnative : op.native = none) (hheads : ∀ atom ∈ list, op.heads atom = false)
    (hresult : (engine.apply (.operator op mark) (.sequence (.plain list) listMark)).result =
      .ok result) :
    op.Gives (op.remaining list) result ∧
      (Sequence.Separate op.properties →
        Sequence.normalize op.properties (op.remaining list) =
            Sequence.normalize op.properties list ∧
          ((∀ atom ∈ list, op.nests atom = false) → op.Normalized list result)) := by
  rcases exists_of_applyAt_ok hresult with ⟨evaluate, happlied⟩
  unfold Operator.applyWith at happlied
  rw [Operator.Plain.arguments_sequence (Operator.mismatch?_none op)] at happlied
  change (Evaluation.andThen (Evaluation.value _) _).result = _ at happlied
  rw [Evaluation.value_andThen, hassociative, if_pos rfl, Sequence.elements_plain] at happlied
  have hgives := Operator.gives_of_applyAssociative hnative happlied
  rw [Operator.simplify_eq_remaining hheads] at hgives
  refine ⟨hgives, fun hseparate => ⟨?_, hgives.normalized hassociative hseparate⟩⟩
  rw [Operator.remaining_eq]
  exact Sequence.normalize_pruned_filter hassociative hseparate list

def join : Operator Atom :=
  ⟨"join", ⟨some (.boolean true), none, none, none, some (.integer 0)⟩,
    [.free "a" .any], none, none⟩

theorem apply_normalized_join :
    ∃ result, (idle.apply (.operator join .new)
        (.sequence (.plain [.integer 1, .integer 0, .integer 2]) .new)).result = .ok result ∧
      join.Gives (join.remaining [.integer 1, .integer 0, .integer 2]) result ∧
      join.Normalized [.integer 1, .integer 0, .integer 2] result := by
  have hok : (idle.apply (.operator join .new)
      (.sequence (.plain [.integer 1, .integer 0, .integer 2]) .new)).result.isOk = true := by
    decide +kernel
  cases hresult : (idle.apply (.operator join .new)
      (.sequence (.plain [.integer 1, .integer 0, .integer 2]) .new)).result with
  | error error =>
      rw [hresult] at hok
      cases hok
  | ok result =>
      rcases apply_normalized rfl rfl (by decide) hresult with ⟨hgives, hnormal⟩
      have hseparate : Sequence.Separate join.properties := fun _ _ hnone => by cases hnone
      exact ⟨result, rfl, hgives, (hnormal hseparate).2 (by decide)⟩

def append : Operator Atom := ⟨"+", ⟨some (.boolean true), none, none, none, none⟩, [], none, none⟩

def appended : Atom := .sequence ⟨append.properties, [.integer 1, .integer 2]⟩ .new

/-- An associative operator whose identity is its absorber. -/
def vanish : Operator Atom :=
  ⟨"*", ⟨some (.boolean true), none, none, some (.integer 0), some (.integer 0)⟩, [], none, none⟩

theorem exists_result_of_any {α : Type} {x : Except TermError α} {p : α → Bool}
    (h : (x.toOption.any p) = true) : ∃ result, x = .ok result ∧ p result = true := by
  cases x with
  | error error => cases h
  | ok result => exact ⟨result, rfl, h⟩

/-- A nested sequence is given as the single argument that it is, and an identity that is the
absorber is dropped before it can absorb. -/
theorem apply_not_normalized :
    (append.properties.isAssociative = true ∧ append.native = none ∧ append.heads appended = false ∧
      ∃ result, (idle.apply (.operator append .new) (.sequence (.plain [appended]) .new)).result =
        .ok result ∧ ¬append.Normalized [appended] result) ∧
    vanish.properties.isAssociative = true ∧ vanish.native = none ∧
      (∀ atom ∈ [.integer 0, .integer 1], vanish.heads atom = false) ∧
      ∃ result, (idle.apply (.operator vanish .new)
          (.sequence (.plain [.integer 0, .integer 1]) .new)).result = .ok result ∧
        ¬vanish.Normalized [.integer 0, .integer 1] result := by
  have hnested : ((idle.apply (.operator append .new)
      (.sequence (.plain [appended]) .new)).result.toOption.any (·.depth == 1)) = true := by
    decide +kernel
  have hone : ((idle.apply (.operator vanish .new) (.sequence (.plain [.integer 0, .integer 1])
      .new)).result.toOption.any (· == .integer 1)) = true := by
    decide +kernel
  rcases exists_result_of_any hnested with ⟨result, hresult, hdepth⟩
  rcases exists_result_of_any hone with ⟨other, hother, hequal⟩
  refine ⟨⟨rfl, rfl, rfl, result, hresult, ?_⟩, rfl, rfl, by decide, other, hother, ?_⟩
  · intro h
    rcases h.several (by decide +kernel) (fun _ => rfl) with ⟨bound, rfl⟩
    simp [Atom.depth] at hdepth
  · intro h
    have hzero : (vanish.properties.absorber == some (.integer 0)) = true := by decide +kernel
    rcases @Sequence.normalize_of_absorber vanish.properties rfl [.integer 0, .integer 1] rfl _
      List.mem_cons_self hzero with ⟨absorber, habsorber, hsingle⟩
    have hresult := Atom.beq_trans (h.single absorber hsingle) (Atom.beq_symm habsorber)
    have hnot : (Atom.integer 1 == Atom.integer 0) = false := by decide +kernel
    rw [Atom.beq_trans (Atom.beq_symm hequal) hresult] at hnot
    cases hnot

end Engine

end Equational
