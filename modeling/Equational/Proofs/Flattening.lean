import Equational.Proofs.Fingerprints
import Equational.Proofs.Residues
import Equational.Proofs.WellMade

/-!
# Normal forms at one go

The rounds of normalization interleave the removal of duplicates and units with
the opening of nested sequences, and stop early at an absorber.  Which of these
is done first does not show in the result: the normal form is what is left of
the list in which every nested sequence has given way to its elements.
-/

namespace Equational

open Atom

/-!
## Parts of an atom

Without a collision, property sets that equality does not tell apart are the same; and no law is
given by a sequence that has the law itself, as it would be deeper than itself.
-/

namespace Atom

variable {p : Atom → Prop}

theorem everywhere_integer {n : Int64} (h : p (integer n)) (htype : p (root "INTEGER" .common)) :
    (integer n).Everywhere p := ⟨h, htype⟩

theorem everywhere_boolean {value : Bool} (h : p (boolean value))
    (htype : p (root "BOOLEAN" .common)) : (boolean value).Everywhere p := ⟨h, htype⟩

theorem beq_some_iff {value : Option Atom} {atom : Atom} : (value == some atom) = true ↔
    ∃ declared, value = some declared ∧ (declared == atom) = true := by
  cases value with
  | none =>
      constructor
      · intro h
        cases h
      · rintro ⟨declared, hnone, -⟩
        cases hnone
  | some declared =>
      constructor
      · exact fun h => ⟨declared, rfl, h⟩
      · rintro ⟨other, hsome, h⟩
        cases hsome
        exact h

theorem list_beq_of_map_key {list other : List Atom} (h : list.map key = other.map key) :
    (list == other) = true := by
  induction list generalizing other with
  | nil =>
      rw [List.map_eq_nil_iff.mp h.symm]
      rfl
  | cons atom rest ih =>
      cases other with
      | nil => cases h
      | cons atom' rest' =>
          rw [List.map_cons, List.map_cons, List.cons.injEq] at h
          rw [List.cons_beq_cons, ih h.2, beq_eq_key_beq, h.1, BEq.rfl]
          rfl

theorem Everywhere.of_sequence {s : Sequence Atom} {mark : Mark}
    (h : (Atom.sequence s mark).Everywhere p) :
    PropertiesEverywhere p s.properties ∧ ∀ atom ∈ s.elements, atom.Everywhere p := by
  have helements := listEverywhere_iff.mp h.elements
  cases s
  exact ⟨h.2.1, helements⟩

/-- A sequence is in normal form; there is no more to an atom of another kind. -/
def IsNormal (atom : Atom) : Prop :=
  ∀ s, atom.sequence? = some s → Sequence.normalize s.properties s.elements = s.elements

theorem isNormal_of_sequence? {atom : Atom} (h : atom.sequence? = none) : atom.IsNormal := by
  intro s hs
  rw [h] at hs
  cases hs

theorem isNormal_sequence {s : Sequence Atom} {mark : Mark} : (sequence s mark).IsNormal ↔
    Sequence.normalize s.properties s.elements = s.elements := by
  constructor
  · exact fun h => h s rfl
  · intro h s' hs
    cases hs
    exact h

theorem Like.key {f : Option String → Option String} {a b : Atom} (h : Like f a b) :
    a.key = b.key := by
  have hequal := (beq_iff a b).mp (Like.beq h)
  exact Prod.ext hequal.1 hequal.2

theorem SameTerm.key {a b : Atom} (h : SameTerm a b) : a.key = b.key := Like.key h

theorem beq_of_key_eq {a b : Atom} (h : a.key = b.key) : (a == b) = true := by
  rw [beq_eq_key_beq, h]
  exact BEq.rfl

theorem map_key_of_forall₂ {f : Option String → Option String} {list other : List Atom}
    (h : List.Forall₂ (Like f) list other) : list.map key = other.map key := by
  induction h with
  | nil => rfl
  | cons halike _ ih => rw [List.map_cons, List.map_cons, Like.key halike, ih]

theorem map_key_of_map_term {list other : List Atom} (h : list.map term = other.map term) :
    list.map key = other.map key :=
  map_key_of_forall₂ (forall₂_of_map_term h)

theorem NoCollision.of_key_eq {among : Atom → Prop} (h : NoCollision among) {a b : Atom}
    (ha : among a) (hb : among b) (hkey : a.key = b.key) : SameTerm a b :=
  h.sameTerm ha hb (beq_of_key_eq hkey)

end Atom

namespace PropertySet

variable {properties other : Properties} {among : Atom → Prop}

theorem beq_refl (properties : Properties) : (properties == properties) = true := by
  have h : ∀ value : Option Atom, (value == value) = true := by
    intro value
    cases value with
    | none => rfl
    | some atom => exact Atom.beq_refl atom
  change (properties.associative == properties.associative && _ && _ && _ && _) = true
  simp only [h, Bool.and_self]

theorem beq_get (h : (properties == other) = true) (law : Law) :
    (properties.get law == other.get law) = true := by
  have hfields : (properties.associative == other.associative && properties.commutative ==
    other.commutative && properties.idempotent == other.idempotent && properties.absorber ==
      other.absorber && properties.identity == other.identity) = true := h
  simp only [Bool.and_eq_true] at hfields
  rcases hfields with ⟨⟨⟨⟨ha, hc⟩, hi⟩, hb⟩, hd⟩
  cases law with
  | associative => exact ha
  | commutative => exact hc
  | idempotent => exact hi
  | absorber => exact hb
  | identity => exact hd

theorem among_get (h : PropertiesEverywhere among properties) {law : Law} {value : Atom}
    (hget : properties.get law = some value) : among value :=
  Everywhere.self (optionEverywhere_iff.mp (propertiesEverywhere_iff.mp h law) value hget)

theorem bare_eq_of_beq {f : Option String → Option String}
    (hlike : ∀ a b, among a → among b → a.fingerprint = b.fingerprint → Like f a b)
    (hproperties : PropertiesEverywhere among properties)
    (hother : PropertiesEverywhere among other) (h : (properties == other) = true) :
    properties.bare f = other.bare f := by
  apply PropertySet.eq_of_get_eq
  intro law
  rw [get_bare, get_bare]
  have hequal := beq_get h law
  cases hget : properties.get law with
  | none =>
      cases hget' : other.get law with
      | none => rfl
      | some atom =>
          rw [hget, hget'] at hequal
          cases hequal
  | some atom =>
      cases hget' : other.get law with
      | none =>
          rw [hget, hget'] at hequal
          cases hequal
      | some atom' =>
          rw [hget, hget'] at hequal
          have hbeq : (atom == atom') = true := hequal
          exact congrArg some (hlike _ _ (among_get hproperties hget) (among_get hother hget')
            ((beq_iff atom atom').mp hbeq).2)

theorem sameTerm_of_beq (hcollision : NoCollision among)
    (hproperties : PropertiesEverywhere among properties)
    (hother : PropertiesEverywhere among other) (h : (properties == other) = true) :
    properties.SameTerm other :=
  bare_eq_of_beq hcollision hproperties hother h

theorem sizeOf_lt_of_get {law : Law} {value : Atom} (hget : properties.get law = some value) :
    sizeOf value < sizeOf properties := by
  cases properties
  cases law
  all_goals
    simp only [get] at hget
    simp only [hget, PropertySet.mk.sizeOf_spec, Option.some.sizeOf_spec]
    omega

theorem sizeOf_term_lt_of_get {law : Law} {value : Atom} (hget : properties.get law = some value) :
    sizeOf value.term < sizeOf (properties.bare fun _ => Option.none) := by
  have hbare : (properties.bare fun _ => Option.none).get law = some value.term := by
    rw [get_bare, hget]
    rfl
  exact sizeOf_lt_of_get hbare

theorem not_sameTerm_sequence {law : Law} {value : Atom} (hget : properties.get law = some value)
    {s : Sequence Atom} (hs : s.properties.SameTerm properties) (mark : Mark) :
    ¬Atom.SameTerm value (.sequence s mark) := by
  intro hsame
  have hvalue : value.term = .sequence (s.bare fun _ => Option.none) .new := by
    rw [← bare_sequence]
    exact hsame
  have hlt : sizeOf (s.bare fun _ => Option.none).properties < sizeOf value.term := by
    rw [hvalue]
    simp only [Atom.sequence.sizeOf_spec, Sequence.bare, Sequence.mk.sizeOf_spec]
    omega
  have hproperties : (s.bare fun _ => Option.none).properties =
      properties.bare fun _ => Option.none := hs
  rw [hproperties] at hlt
  exact absurd hlt (Nat.lt_asymm (sizeOf_term_lt_of_get hget))

end PropertySet

namespace Sequence

variable {properties other : Properties} {list : List Atom}

theorem beq_of_map_key {s t : Sequence Atom} (hproperties : s.properties = t.properties)
    (h : s.elements.map key = t.elements.map key) : (s == t) = true := by
  rcases s with ⟨p, list⟩
  rcases t with ⟨q, other⟩
  cases hproperties
  have hdepth : ∀ list : List Atom, listDepth list =
      (list.map key).foldr (fun k d => max k.1 d) 0 := by
    intro list
    induction list with
    | nil => rfl
    | cons atom rest ih => rw [listDepth, ih, List.map_cons, List.foldr_cons, key]
  have hprints : ∀ list : List Atom, listFingerprints list = (list.map key).map (·.2) := by
    intro list
    rw [listFingerprints_eq_map, List.map_map]
    rfl
  have hlength : list.length = other.length := by simpa using congrArg List.length h
  change (Atom.sequence ⟨p, list⟩ .new == Atom.sequence ⟨p, other⟩ .new) = true
  rw [beq_iff]
  constructor
  · rw [depth, depth, hdepth, hdepth, h]
  · rw [fingerprint, fingerprint, hprints, hprints, hlength, h]

/-!
## What elements contribute

A pass that meets no absorber puts what an element contributes in its place.  A list is tidy if
equal elements contribute equal ones, and what is contributed holds no nested sequences.
-/

def reduction (properties : Properties) : Reduction where
  absorbs atom := properties.absorber == some atom
  isUnit atom := properties.identity == some atom
  idempotent := properties.isIdempotent
  absorbs_congr a b hkey := by
    rw [Operator.any_beq_comm, Operator.any_beq_comm]
    simp only [beq_eq_key_beq, hkey]
  isUnit_congr a b hkey := by
    rw [Operator.any_beq_comm, Operator.any_beq_comm]
    simp only [beq_eq_key_beq, hkey]

theorem key_of_absorbs {a b : Atom} (ha : (reduction properties).absorbs a = true)
    (hb : (reduction properties).absorbs b = true) : a.key = b.key := by
  rcases beq_some_iff.mp ha with ⟨declared, hdeclared, ha⟩
  rcases beq_some_iff.mp hb with ⟨declared', hdeclared', hb⟩
  cases hdeclared.symm.trans hdeclared'
  rw [beq_eq_key_beq, beq_iff_eq] at ha hb
  rw [← ha, hb]

/-- The elements that an atom contributes to a sequence: those of a sequence of equal properties,
else itself. -/
def pieces (properties : Properties) : Atom → List Atom
  | .sequence inner mark =>
    if inner.properties == properties then inner.elements else [.sequence inner mark]
  | atom => [atom]

/-- The list in which every nested sequence of equal properties has given way to its elements. -/
def flatten (properties : Properties) (list : List Atom) : List Atom :=
  list.flatMap (pieces properties)

theorem pieces_cases (properties : Properties) (atom : Atom) :
    pieces properties atom = [atom] ∨ ∃ s mark, atom = .sequence s mark ∧
      (s.properties == properties) = true ∧ pieces properties atom = s.elements := by
  cases atom with
  | sequence s mark =>
      rw [pieces]
      split
      · rename_i h
        exact .inr ⟨s, mark, rfl, h, rfl⟩
      · exact .inl rfl
  | _ => exact .inl rfl

theorem pieces_of_sequence? {atom : Atom} (h : atom.sequence? = none) :
    pieces properties atom = [atom] := by
  rcases pieces_cases properties atom with hpieces | ⟨s, mark, rfl, -⟩
  · exact hpieces
  · cases h

theorem pieces_sequence {s : Sequence Atom} (h : (s.properties == properties) = true)
    (mark : Mark) : pieces properties (.sequence s mark) = s.elements :=
  if_pos h

theorem flatten_eq_self (h : ∀ atom ∈ list, pieces properties atom = [atom]) :
    flatten properties list = list := by
  rw [flatten, List.flatMap_congr h]
  exact List.flatMap_singleton' list

theorem opened_eq_some {atom : Atom} {front : List Atom}
    (h : opened properties atom = some front) :
    ((reduction properties).isUnit atom = true ∧ front = []) ∨
      (reduction properties).isUnit atom = false ∧ front = pieces properties atom := by
  unfold opened at h
  split at h
  · rename_i hunit
    exact .inl ⟨hunit, (Option.some.inj h).symm⟩
  · rename_i hunit
    rcases Option.map_eq_some_iff.mp h with ⟨inner, hinner, rfl⟩
    rcases Option.filter_eq_some_iff.mp hinner with ⟨hsequence, hequal⟩
    refine .inr ⟨Bool.eq_false_iff.mpr hunit, ?_⟩
    cases atom with
    | sequence s mark =>
        cases hsequence
        exact (pieces_sequence hequal mark).symm
    | _ => cases hsequence

theorem opened_eq_none {atom : Atom} (h : opened properties atom = none) :
    (reduction properties).isUnit atom = false ∧ pieces properties atom = [atom] := by
  unfold opened at h
  split at h
  · cases h
  · rename_i hunit
    refine ⟨Bool.eq_false_iff.mpr hunit, ?_⟩
    rcases pieces_cases properties atom with hpieces | ⟨s, mark, rfl, hequal, -⟩
    · exact hpieces
    · rw [sequence?, Option.filter_some, if_pos hequal] at h
      cases h

/-- A pass that meets no absorber puts what elements contribute in their places, and changes
nothing if it finds neither units nor nested sequences. -/
theorem splice_eq_elements {next : List Atom} {changed : Bool}
    (h : splice properties list = .elements next changed) :
    (∀ atom ∈ list, (reduction properties).absorbs atom = false) ∧
      next = (list.filter (!(reduction properties).isUnit ·)).flatMap (pieces properties) ∧
      (changed = false → ∀ atom ∈ list,
        (reduction properties).isUnit atom = false ∧ pieces properties atom = [atom]) := by
  induction list generalizing next changed with
  | nil =>
      cases h
      exact ⟨by simp, rfl, by simp⟩
  | cons atom rest ih =>
      cases habsorbs : properties.absorber == some atom with
      | true =>
          rw [splice_cons_absorber habsorbs] at h
          cases h
      | false =>
          simp only [List.forall_mem_cons]
          cases hopened : opened properties atom with
          | some front =>
              rw [splice_cons_opened habsorbs hopened] at h
              rcases Spliced.splice_eq_elements h with ⟨tail, flag, htail, rfl, rfl⟩
              rcases ih htail with ⟨hrest, rfl, -⟩
              refine ⟨⟨habsorbs, hrest⟩, ?_, by simp⟩
              rcases opened_eq_some hopened with ⟨hunit, rfl⟩ | ⟨hunit, rfl⟩
              · rw [List.filter_cons_of_neg (by rw [hunit]; decide), List.nil_append]
              · rw [List.filter_cons_of_pos (by rw [hunit]; rfl), List.flatMap_cons]
          | none =>
              rw [splice_cons_kept habsorbs hopened] at h
              rcases Spliced.cons_eq_elements h with ⟨tail, htail, rfl⟩
              rcases ih htail with ⟨hrest, rfl, hkept⟩
              have hatom := opened_eq_none hopened
              refine ⟨⟨habsorbs, hrest⟩, ?_, fun hchanged => ⟨hatom, hkept hchanged⟩⟩
              rw [List.filter_cons_of_pos (by rw [hatom.1]; rfl), List.flatMap_cons, hatom.2]
              rfl

/-- Equal elements contribute equal ones, absorbers and units are not nested sequences, and no
nested sequence is left in what elements contribute. -/
structure Tidy (properties : Properties) (list : List Atom) : Prop where
  contributes : ∀ a ∈ list, ∀ b ∈ list, a.key = b.key →
    (pieces properties a).map key ⊆ (pieces properties b).map key
  whole : ∀ a ∈ list, (reduction properties).absorbs a = true ∨
    (reduction properties).isUnit a = true → pieces properties a = [a]
  level : ∀ a ∈ list, ∀ b ∈ pieces properties a, pieces properties b = [b]

theorem tidy_of_flat (h : ∀ atom ∈ list, pieces properties atom = [atom]) :
    Tidy properties list where
  contributes a ha b hb hkey := by
    rw [h a ha, h b hb, List.map_singleton, List.map_singleton, hkey]
    exact List.Subset.refl _
  whole a ha _ := h a ha
  level a ha b hb := by
    rw [h a ha, List.mem_singleton] at hb
    rw [hb]
    exact h a ha

/-!
## What the rounds lead to

A round that meets no absorber opens all nested sequences, and leaves the same as before of what
the elements contribute.  So of the normal form the same is left, and it holds neither units nor
nested sequences.
-/

theorem key_mem_pruned {atom : Atom} (h : atom ∈ list) :
    atom.key ∈ (pruned properties list).map key := by
  unfold pruned
  split
  · exact mem_map_key_distinct.mpr (List.mem_map_of_mem h)
  · exact List.mem_map_of_mem h

/-- A round that meets no absorber opens all nested sequences, and nothing else can be told of the
list that it leaves. -/
theorem residue_splice (htidy : Tidy properties list) {next : List Atom} {changed : Bool}
    (h : splice properties (pruned properties list) = .elements next changed) :
    (∀ atom ∈ next, pieces properties atom = [atom]) ∧ next ⊆ flatten properties list ∧
      (reduction properties).residue next =
        (reduction properties).residue (flatten properties list) := by
  rcases splice_eq_elements h with ⟨habsorbs, hnext, -⟩
  have htrimmed : next = ((reduction properties).trimmed list).flatMap (pieces properties) := by
    rw [hnext, ← pruned_filter fun a b hkey => by rw [(reduction properties).isUnit_congr a b hkey]]
    rfl
  have hkept := ((reduction properties).trimmed_sublist list).subset
  have hmem : ∀ atom ∈ next, ∃ a ∈ list, atom ∈ pieces properties a := by
    intro atom hatom
    rw [htrimmed] at hatom
    rcases List.mem_flatMap.mp hatom with ⟨a, ha, hpiece⟩
    exact ⟨a, hkept ha, hpiece⟩
  refine ⟨?_, ?_, ?_⟩
  · intro atom hatom
    rcases hmem atom hatom with ⟨a, ha, hpiece⟩
    exact htidy.level a ha atom hpiece
  · intro atom hatom
    exact List.mem_flatMap.mpr (hmem atom hatom)
  · rw [htrimmed]
    apply Reduction.residue_flatMap_trimmed fun _ => htidy.contributes
    intro a ha hunit
    rw [htidy.whole a ha (.inr hunit)]
    refine Reduction.residue_of_isUnit ?_ hunit
    -- an equal element is in the list that was passed over
    rcases List.mem_map.mp (key_mem_pruned ha) with ⟨b, hb, hkey⟩
    rw [← (reduction properties).absorbs_congr b a hkey]
    exact habsorbs b hb

/-- The normal form is an absorber that some element contributes, or else what is left of all that
the elements contribute. -/
theorem normalize_spec (hassociative : properties.isAssociative = true)
    (htidy : Tidy properties list) :
    (∃ absorber ∈ flatten properties list, (reduction properties).absorbs absorber = true ∧
        normalize properties list = [absorber]) ∨
      (reduction properties).residue (flatten properties list) =
        some (normalize properties list) := by
  -- on the span: a round that changes the list leaves one without nested sequences
  induction hspan : listSpan list using Nat.strongRecOn generalizing list with
  | ind span ih =>
      rcases normalize_cases hassociative list with
        ⟨absorber, hsplice, hnormal⟩ | ⟨hpruned, hsplice, hnormal⟩ |
        ⟨next, changed, hsplice, hlt, hnormal⟩
      · rcases absorber_of_splice hsplice with ⟨habsorbs, hmem⟩
        have hmem := (pruned_sublist properties list).subset hmem
        refine .inl ⟨absorber, List.mem_flatMap.mpr ⟨absorber, hmem, ?_⟩, habsorbs, hnormal⟩
        rw [htidy.whole absorber hmem (.inl habsorbs)]
        exact List.mem_singleton_self absorber
      · rcases splice_eq_elements hsplice with ⟨habsorbs, -, hkept⟩
        rw [flatten_eq_self fun atom hatom => (hkept rfl atom hatom).2,
          Reduction.residue_of_not_absorbs habsorbs, hnormal]
        have hfilter : list.filter (!(reduction properties).isUnit ·) = list := by
          rw [List.filter_eq_self]
          intro atom hatom
          rw [(hkept rfl atom hatom).1]
          rfl
        refine .inr (congrArg some ?_)
        change pruned properties (list.filter _) = list
        rw [hfilter, hpruned]
      · rcases residue_splice htidy hsplice with ⟨hflat, hsubset, hresidue⟩
        have hnext := ih _ (hspan ▸ hlt) (tidy_of_flat hflat) rfl
        rw [flatten_eq_self hflat, hresidue, ← hnormal] at hnext
        rcases hnext with ⟨absorber, hmem, hrest⟩ | hrest
        · exact .inl ⟨absorber, hsubset hmem, hrest⟩
        · exact .inr hrest

theorem residue_normalize (hassociative : properties.isAssociative = true)
    (htidy : Tidy properties list) :
    (reduction properties).residue (normalize properties list) =
      (reduction properties).residue (flatten properties list) := by
  rcases normalize_spec hassociative htidy with ⟨absorber, hmem, habsorbs, hnormal⟩ | hresidue
  · rw [hnormal, Reduction.residue_of_absorbs habsorbs]
    exact (Reduction.residue_eq_none_iff.mpr ⟨absorber, hmem, habsorbs⟩).symm
  · rw [hresidue]
    exact Reduction.residue_of_residue hresidue

theorem normal_cases (hassociative : properties.isAssociative = true)
    (h : normalize properties list = list) :
    (∃ absorber, (reduction properties).absorbs absorber = true ∧ list = [absorber]) ∨
      ∀ atom ∈ list, pieces properties atom = [atom] := by
  exact (kept_of_normalize hassociative h).imp id fun hkept atom hatom =>
    (opened_eq_none (hkept.2 atom hatom).2).2

/-!
## Lists without a collision
-/

section

variable {among : Atom → Prop}

theorem beq_get_sameTerm (h : properties.SameTerm other) (law : Law) (atom : Atom) :
    (properties.get law == some atom) = (other.get law == some atom) := by
  rw [← @beq_some_bare (fun _ => none) (properties.get law),
    ← @beq_some_bare (fun _ => none) (other.get law)]
  exact congrArg (· == some (atom.bare fun _ => none)) (h.get law)

theorem beq_sameTerm (h : properties.SameTerm other) (third : Properties) :
    (third == properties) = (third == other) := by
  rw [← @PropertySet.beq_bare (fun _ => none) third properties,
    ← @PropertySet.beq_bare (fun _ => none) third other, h]

theorem splice_sameTerm (h : properties.SameTerm other) (list : List Atom) :
    splice properties list = splice other list := by
  have hopened : ∀ atom, opened properties atom = opened other atom := by
    intro atom
    unfold opened
    simp only [beq_sameTerm h]
    rw [show (properties.identity == some atom) = (other.identity == some atom) from
      beq_get_sameTerm h .identity atom]
  induction list with
  | nil => rfl
  | cons atom rest ih =>
      have habsorber : (properties.absorber == some atom) = (other.absorber == some atom) :=
        beq_get_sameTerm h .absorber atom
      cases hother : other.absorber == some atom with
      | true =>
          rw [splice_cons_absorber (habsorber.trans hother), splice_cons_absorber hother]
      | false =>
          rw [splice_cons (habsorber.trans hother), splice_cons hother, hopened, ih]

theorem isIdempotent_sameTerm (h : properties.SameTerm other) :
    properties.isIdempotent = other.isIdempotent := by
  rw [← PropertySet.isIdempotent_bare (fun _ => none) properties, h, PropertySet.isIdempotent_bare]

theorem normalize_sameTerm (h : properties.SameTerm other) (list : List Atom) :
    normalize properties list = normalize other list := by
  have hwithin : ∀ passes list,
      normalizeWithin properties passes list = normalizeWithin other passes list := by
    intro passes
    induction passes with
    | zero => exact fun _ => rfl
    | succ passes ih =>
        intro list
        unfold normalizeWithin
        simp only [isIdempotent_sameTerm h, h.isAssociative, splice_sameTerm h, ih]
  exact hwithin _ list

theorem map_key_pieces {a b : Atom} (h : Atom.SameTerm a b) :
    (pieces properties a).map key = (pieces properties b).map key := by
  have hnested : ∀ {s : Sequence Atom} {mark : Mark} {b : Atom},
      Atom.SameTerm (.sequence s mark) b → (s.properties == properties) = true →
      s.elements.map key = (pieces properties b).map key := by
    intro s mark b h hequal
    rcases h.sequence with ⟨s', mark', rfl, hproperties, helements⟩
    rw [← @PropertySet.beq_bare (fun _ => none), hproperties, PropertySet.beq_bare] at hequal
    rw [pieces_sequence hequal, map_key_of_map_term helements]
  rcases pieces_cases properties a with ha | ⟨s, mark, rfl, hequal, ha⟩
  · rcases pieces_cases properties b with hb | ⟨s, mark, rfl, hequal, hb⟩
    · rw [ha, hb, List.map_singleton, List.map_singleton, h.key]
    · rw [hb, hnested h.symm hequal]
  · rw [ha, hnested h hequal]

theorem tidy_of_noCollision (hassociative : properties.isAssociative = true)
    (hcollision : NoCollision among) (hproperties : PropertiesEverywhere among properties)
    (hlist : ∀ atom ∈ list, atom.Everywhere among)
    (hnormal : ∀ atom ∈ list, atom.IsNormal) :
    Tidy properties list := by
  have hwhole : ∀ {law : Law} {atom : Atom}, atom.Everywhere among →
      (properties.get law == some atom) = true → pieces properties atom = [atom] := by
    intro law atom hatom h
    rcases pieces_cases properties atom with hpieces | ⟨s, mark, rfl, hequal, -⟩
    · exact hpieces
    · rcases beq_some_iff.mp h with ⟨value, hget, hvalue⟩
      have hsame := PropertySet.sameTerm_of_beq hcollision hatom.of_sequence.1 hproperties hequal
      exact absurd (hcollision.sameTerm (PropertySet.among_get hproperties hget) hatom.self hvalue)
        (PropertySet.not_sameTerm_sequence hget hsame mark)
  refine ⟨?_, ?_, ?_⟩
  · intro a ha b hb hkey
    rw [map_key_pieces (hcollision.of_key_eq (hlist a ha).self (hlist b hb).self hkey)]
    exact List.Subset.refl _
  · rintro a ha (habsorbs | hunit)
    · exact @hwhole .absorber a (hlist a ha) habsorbs
    · exact @hwhole .identity a (hlist a ha) hunit
  · intro a ha b hb
    rcases pieces_cases properties a with hpieces | ⟨s, mark, rfl, hequal, hpieces⟩
    · rw [hpieces, List.mem_singleton] at hb
      rw [hb, hpieces]
    · have hparts := (hlist _ ha).of_sequence
      have hsame := PropertySet.sameTerm_of_beq hcollision hparts.1 hproperties hequal
      have helements := isNormal_sequence.mp (hnormal _ ha)
      rw [normalize_sameTerm hsame] at helements
      rw [hpieces] at hb
      rcases normal_cases hassociative helements with ⟨absorber, habsorbs, hsingle⟩ | hflat
      · have hb' := hparts.2 b hb
        rw [hsingle, List.mem_singleton] at hb
        exact @hwhole .absorber b hb' (hb ▸ habsorbs)
      · exact hflat b hb

end

/-!
## Rounds without a bound

The rounds are taken without a bound on their number.  They come to an end with one result at
most, and it is the one that the bounded rounds give.
-/

/-- One round: the list that it leaves, and whether another round has to follow. -/
def round (properties : Properties) (list : List Atom) : List Atom × Bool :=
  let distinct := pruned properties list
  let shorter := distinct.length != list.length
  if properties.isAssociative then
    match splice properties distinct with
    | .absorbed absorber => ([absorber], false)
    | .elements next changed => (next, shorter || changed)
  else (distinct, shorter)

/-- The rounds that start from a list come to an end, with a result.  Nothing bounds their
number. -/
inductive Ends (properties : Properties) : List Atom → List Atom → Prop
  | last {list : List Atom} (h : (round properties list).2 = false) :
      Ends properties list (round properties list).1
  | more {list result : List Atom} (h : (round properties list).2 = true)
      (hrest : Ends properties (round properties list).1 result) : Ends properties list result

theorem normalizeWithin_succ (properties : Properties) (passes : Nat) (list : List Atom) :
    normalizeWithin properties (passes + 1) list =
      if (round properties list).2 then
        normalizeWithin properties passes (round properties list).1
      else (round properties list).1 := by
  have hpruned : (if properties.isIdempotent then distinct list else list) =
      pruned properties list := rfl
  simp only [normalizeWithin, round, hpruned]
  split
  · cases splice properties (pruned properties list) with
    | absorbed absorber => rfl
    | elements next changed => rfl
  · rfl

theorem listSpan_round (h : (round properties list).2 = true) :
    listSpan (round properties list).1 < listSpan list := by
  cases hassociative : properties.isAssociative with
  | false =>
      simp only [round, hassociative, Bool.false_eq_true, if_false] at h ⊢
      exact listSpan_pruned_lt h
  | true =>
      simp only [round, hassociative, if_true] at h ⊢
      cases hsplice : splice properties (pruned properties list) with
      | absorbed absorber =>
          rw [hsplice] at h
          cases h
      | elements next changed =>
          rw [hsplice] at h
          have hpruned := listSpan_le_of_sublist (pruned_sublist properties list)
          rcases listSpan_splice hsplice with ⟨-, hlt⟩ | ⟨rfl, rfl⟩
          · exact Nat.lt_of_lt_of_le hlt hpruned
          · exact listSpan_pruned_lt (by simpa using h)

theorem normalize_round (h : (round properties list).2 = true) :
    normalize properties list = normalize properties (round properties list).1 := by
  have hspan := listSpan_round h
  rw [normalize, normalizeWithin_succ, if_pos h]
  exact normalizeWithin_eq hspan (Nat.lt_succ_self _)

theorem ends_iff {result : List Atom} :
    Ends properties list result ↔ result = normalize properties list := by
  constructor
  · intro hends
    induction hends with
    | last h => rw [normalize, normalizeWithin_succ, if_neg (by rw [h]; decide)]
    | more h _ ih => rw [ih, normalize_round h]
  · rintro rfl
    induction hspan : listSpan list using Nat.strongRecOn generalizing list with
    | ind span ih =>
        cases hround : (round properties list).2 with
        | false =>
            rw [normalize, normalizeWithin_succ, if_neg (by rw [hround]; decide)]
            exact .last hround
        | true =>
            rw [normalize_round hround]
            exact .more hround (ih _ (hspan ▸ listSpan_round hround) rfl)

/-!
## One pass
-/

/-- The list without later duplicates, if the law of idempotence holds. -/
def firsts (properties : Properties) (list : List Atom) : List Atom :=
  if properties.isIdempotent then list.eraseDups else list

/-- The normal form at one go. -/
def onePass (properties : Properties) (list : List Atom) : List Atom :=
  if properties.isAssociative then
    let flat := flatten properties list
    if flat.any (properties.absorber == some ·) then properties.absorber.toList
    else firsts properties (flat.filter (properties.identity != some ·))
  else firsts properties list

theorem distinctFrom_eq_eraseDups (seen : List (Nat × Digest)) (list : List Atom) :
    distinctFrom seen list = (list.filter fun atom => !seen.contains atom.key).eraseDups := by
  induction list generalizing seen with
  | nil => rfl
  | cons atom rest ih =>
      by_cases hmem : atom.key ∈ seen
      · rw [distinctFrom_cons_of_mem hmem, ih, List.filter_cons_of_neg (by simpa using hmem)]
      · rw [distinctFrom_cons_of_not_mem hmem, ih, List.filter_cons_of_pos (by simpa using hmem),
          List.eraseDups_cons, List.filter_filter]
        congr 2
        apply List.filter_congr
        intro other _
        rw [List.contains_cons, Bool.not_or, beq_eq_key_beq]

theorem pruned_eq_firsts (properties : Properties) (list : List Atom) :
    pruned properties list = firsts properties list := by
  have hdistinct : distinct list = list.eraseDups := by
    rw [distinct, distinctFrom_eq_eraseDups]
    congr 1
    exact List.filter_eq_self.mpr fun _ _ => rfl
  unfold pruned firsts
  rw [hdistinct]

theorem trimmed_reduction (properties : Properties) (list : List Atom) :
    (reduction properties).trimmed list =
      firsts properties (list.filter (properties.identity != some ·)) := by
  rw [← pruned_eq_firsts]
  rfl

/-- The rounds end, the list that they leave is the normal form at one go, and it is a normal form
itself. -/
theorem ends_onePass {among : Atom → Prop} (hcollision : NoCollision among)
    (hproperties : PropertiesEverywhere among properties)
    (hlist : ∀ atom ∈ list, atom.Everywhere among)
    (hnormal : ∀ atom ∈ list, atom.IsNormal) :
    (∀ result, Ends properties list result ↔ result = (ofList properties list).elements) ∧
      ((ofList properties list).elements == onePass properties list) = true ∧
      (ofList properties (ofList properties list).elements).elements =
        (ofList properties list).elements := by
  refine ⟨fun _ => ends_iff, ?_, normalize_normalize properties list⟩
  change (normalize properties list == onePass properties list) = true
  unfold onePass
  split
  · rename_i hassociative
    have htidy := tidy_of_noCollision hassociative hcollision hproperties hlist hnormal
    rcases normalize_spec hassociative htidy with ⟨absorber, hmem, habsorbs, hresult⟩ | hresidue
    · have hany : (flatten properties list).any (properties.absorber == some ·) = true :=
        List.any_eq_true.mpr ⟨absorber, hmem, habsorbs⟩
      simp only [hany, if_true, hresult]
      rcases beq_some_iff.mp habsorbs with ⟨declared, hdeclared, hequal⟩
      rw [hdeclared, Option.toList_some, List.cons_beq_cons, Atom.beq_symm hequal]
      rfl
    · rcases Reduction.residue_eq_some hresidue with ⟨habsorbs, htrimmed⟩
      have hany : (flatten properties list).any (properties.absorber == some ·) = false :=
        List.any_eq_false.mpr fun atom hatom => Bool.eq_false_iff.mp (habsorbs atom hatom)
      simp only [hany, Bool.false_eq_true, if_false]
      rw [← trimmed_reduction, htrimmed]
      exact list_beq_of_map_key rfl
  · rename_i hassociative
    rw [normalize_of_not_associative (Bool.eq_false_iff.mpr hassociative), pruned_eq_firsts]
    exact list_beq_of_map_key rfl

def saturating : Properties :=
  ⟨some (.boolean true), none, some (.boolean true), some (.integer 9), some (.integer 0)⟩

def mixed : List Atom :=
  [.integer 1, .sequence ⟨saturating, [.integer 2, .integer 1]⟩ .new, .integer 0, .integer 2]

def mixedParts : List Atom :=
  [.boolean true, .integer 9, .root "INTEGER" .common, .root "BOOLEAN" .common] ++ mixed

theorem noCollision_mixedParts : NoCollision (· ∈ mixedParts) := by
  have hnodup : (mixedParts.map fingerprint).Nodup := by decide +kernel
  exact noCollision_of_nodup hnodup fun atom hatom => ⟨atom, hatom, rfl⟩

theorem everywhere_mixed : PropertiesEverywhere (· ∈ mixedParts) saturating ∧
    ∀ atom ∈ mixed, atom.Everywhere (· ∈ mixedParts) := by
  have hinteger : ∀ n, integer n ∈ mixedParts → (integer n).Everywhere (· ∈ mixedParts) :=
    fun n hn => everywhere_integer hn (by simp [mixedParts])
  have hboolean : (boolean true).Everywhere (· ∈ mixedParts) :=
    everywhere_boolean (by simp [mixedParts]) (by simp [mixedParts])
  have h0 := hinteger 0 (by simp [mixedParts, mixed])
  have h1 := hinteger 1 (by simp [mixedParts, mixed])
  have h2 := hinteger 2 (by simp [mixedParts, mixed])
  have hproperties : PropertiesEverywhere (· ∈ mixedParts) saturating :=
    ⟨hboolean, trivial, hboolean, hinteger 9 (by simp [mixedParts]), h0⟩
  refine ⟨hproperties, ?_⟩
  simp only [mixed, List.forall_mem_cons]
  exact ⟨h1, ⟨by simp [mixedParts, mixed], hproperties, h2, h1, trivial⟩, h0, h2, by simp⟩

theorem normalize_saturating :
    normalize saturating [.integer 2, .integer 1] = [.integer 2, .integer 1] :=
  normalize_eq_self_of_listSpan (by decide +kernel) (by decide +kernel)

theorem normalize_saturating_nested : normalize saturating
    [.integer 0, .sequence ⟨saturating, [.integer 2, .integer 1]⟩ .new] =
      [.integer 2, .integer 1] := by
  have hpruned : pruned saturating
      [.integer 0, .sequence ⟨saturating, [.integer 2, .integer 1]⟩ .new] = _ :=
    pruned_eq_self (by decide +kernel)
  have hzero : opened saturating (.integer 0) = some [] := if_pos (by decide +kernel)
  have hnested : opened saturating (.sequence ⟨saturating, [.integer 2, .integer 1]⟩ .new) =
      some [.integer 2, .integer 1] := by
    rw [opened, if_neg (by decide +kernel), Atom.sequence?,
      Option.filter_some_pos (by decide +kernel)]
    rfl
  have hround : round saturating
      [.integer 0, .sequence ⟨saturating, [.integer 2, .integer 1]⟩ .new] =
        ([.integer 2, .integer 1], true) := by
    rw [round, hpruned, splice_cons_opened (by decide +kernel) hzero,
      splice_cons_opened (by decide +kernel) hnested]
    rfl
  rw [normalize_round (by rw [hround]), hround]
  exact normalize_saturating
theorem isNormal_mixed : ∀ atom ∈ mixed, atom.IsNormal := by
  simp only [mixed, List.forall_mem_cons]
  exact ⟨isNormal_of_sequence? rfl, isNormal_sequence.mpr normalize_saturating,
    isNormal_of_sequence? rfl, isNormal_of_sequence? rfl, by simp⟩

theorem ends_onePass_mixed :
    NoCollision (· ∈ mixedParts) ∧ PropertiesEverywhere (· ∈ mixedParts) saturating ∧
      (∀ atom ∈ mixed, atom.Everywhere (· ∈ mixedParts)) ∧ (∀ atom ∈ mixed, atom.IsNormal) ∧
      (∀ result, Ends saturating mixed result ↔ result = (ofList saturating mixed).elements) ∧
      ((ofList saturating mixed).elements == onePass saturating mixed) = true ∧
      (onePass saturating mixed == [.integer 1, .integer 2]) = true := by
  rcases everywhere_mixed with ⟨hproperties, hmixed⟩
  rcases ends_onePass noCollision_mixedParts hproperties hmixed isNormal_mixed with
    ⟨hends, hequal, -⟩
  exact ⟨noCollision_mixedParts, hproperties, hmixed, isNormal_mixed, hends, hequal,
    by decide +kernel⟩

end Sequence

end Equational
