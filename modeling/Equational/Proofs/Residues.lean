import Equational.Proofs.Normalization

/-!
# Residues of lists

Sequences and associative operators treat their elements alike.  Units are
dropped, and so are later duplicates if the law of idempotence holds; an
absorber stands for the whole list.  What is left of a list is determined by
what is left of its parts.  So it does not matter which part of a list is
treated first, nor whether elements are treated before or after they give way
to the elements that they contribute.
-/

namespace Equational

open Atom

/-!
## Later duplicates

What stands in front was seen before what follows.  Every element was seen before or is kept, so
duplicates may be dropped from a part of a list first, and before elements give way to what they
contribute.
-/

namespace Atom

variable {seen seen' : List (Nat × Digest)} {atom : Atom} {list other : List Atom}

theorem distinctFrom_cons_of_mem (h : atom.key ∈ seen) (list : List Atom) :
    distinctFrom seen (atom :: list) = distinctFrom seen list := by
  rw [distinctFrom]
  exact if_pos (List.contains_iff_mem.mpr h)

theorem distinctFrom_cons_of_not_mem (h : atom.key ∉ seen) (list : List Atom) :
    distinctFrom seen (atom :: list) = atom :: distinctFrom (atom.key :: seen) list := by
  rw [distinctFrom]
  exact if_neg fun hcontains => h (List.contains_iff_mem.mp hcontains)

theorem distinctFrom_congr (h : ∀ key, key ∈ seen ↔ key ∈ seen') (list : List Atom) :
    distinctFrom seen list = distinctFrom seen' list := by
  induction list generalizing seen seen' with
  | nil => rfl
  | cons atom rest ih =>
      by_cases hmem : atom.key ∈ seen
      · rw [distinctFrom_cons_of_mem hmem, distinctFrom_cons_of_mem ((h _).mp hmem), ih h]
      · rw [distinctFrom_cons_of_not_mem hmem,
          distinctFrom_cons_of_not_mem fun hmem' => hmem ((h _).mpr hmem')]
        congr 1
        exact ih fun key => by rw [List.mem_cons, List.mem_cons, h key]

theorem distinctFrom_append (seen : List (Nat × Digest)) (list other : List Atom) :
    distinctFrom seen (list ++ other) =
      distinctFrom seen list ++ distinctFrom (list.map key ++ seen) other := by
  induction list generalizing seen with
  | nil => rfl
  | cons atom rest ih =>
      rw [List.cons_append, List.map_cons, List.cons_append]
      by_cases hmem : atom.key ∈ seen
      · rw [distinctFrom_cons_of_mem hmem, distinctFrom_cons_of_mem hmem, ih]
        congr 1
        apply distinctFrom_congr
        intro key
        rw [List.mem_cons, List.mem_append]
        exact ⟨Or.inr, fun h => h.elim (fun heq => Or.inr (heq ▸ hmem)) id⟩
      · rw [distinctFrom_cons_of_not_mem hmem, distinctFrom_cons_of_not_mem hmem, ih,
          List.cons_append]
        congr 2
        apply distinctFrom_congr
        intro key
        simp only [List.mem_append, List.mem_cons]
        exact or_left_comm

theorem distinctFrom_eq_nil (h : ∀ atom ∈ list, atom.key ∈ seen) : distinctFrom seen list = [] := by
  induction list with
  | nil => rfl
  | cons atom rest ih =>
      rw [distinctFrom_cons_of_mem (h atom List.mem_cons_self)]
      exact ih fun other hother => h other (List.mem_cons_of_mem _ hother)

theorem key_mem_distinctFrom (h : atom ∈ list) :
    atom.key ∈ seen ∨ atom.key ∈ (distinctFrom seen list).map key := by
  induction list generalizing seen with
  | nil => cases h
  | cons first rest ih =>
      by_cases hmem : first.key ∈ seen
      · rw [distinctFrom_cons_of_mem hmem]
        rcases List.mem_cons.mp h with rfl | hrest
        · exact Or.inl hmem
        · exact ih hrest
      · rw [distinctFrom_cons_of_not_mem hmem, List.map_cons, List.mem_cons]
        rcases List.mem_cons.mp h with rfl | hrest
        · exact Or.inr (Or.inl rfl)
        · rcases @ih (first.key :: seen) hrest with hseen | hkept
          · rcases List.mem_cons.mp hseen with heq | hseen
            · exact Or.inr (Or.inl heq)
            · exact Or.inl hseen
          · exact Or.inr (Or.inr hkept)

theorem mem_map_key_distinct {key : Nat × Digest} :
    key ∈ (distinct list).map Atom.key ↔ key ∈ list.map Atom.key := by
  constructor
  · exact fun h => ((distinct_sublist list).map Atom.key).subset h
  · intro h
    rcases List.mem_map.mp h with ⟨atom, hatom, rfl⟩
    rcases @key_mem_distinctFrom [] atom list hatom with hseen | hkept
    · cases hseen
    · exact hkept

/-- Duplicates may be dropped before elements give way to what they contribute, as long as equal
elements contribute equal ones. -/
theorem distinctFrom_flatMap {h : Atom → List Atom}
    (hkeys : ∀ a ∈ list, ∀ b ∈ list, a.key = b.key → (h a).map key ⊆ (h b).map key)
    (hseen : ∀ a ∈ list, a.key ∈ seen → (h a).map key ⊆ seen') :
    distinctFrom seen' ((distinctFrom seen list).flatMap h) =
      distinctFrom seen' (list.flatMap h) := by
  induction list generalizing seen seen' with
  | nil => rfl
  | cons atom rest ih =>
      have hrest := fun a ha b hb =>
        hkeys a (List.mem_cons_of_mem atom ha) b (List.mem_cons_of_mem atom hb)
      rw [List.flatMap_cons, distinctFrom_append]
      by_cases hmem : atom.key ∈ seen
      · have hsubset := hseen atom List.mem_cons_self hmem
        have hnil : distinctFrom seen' (h atom) = [] :=
          distinctFrom_eq_nil fun piece hpiece => hsubset (List.mem_map_of_mem hpiece)
        rw [distinctFrom_cons_of_mem hmem, hnil, List.nil_append,
          ih hrest fun a ha => hseen a (List.mem_cons_of_mem _ ha)]
        apply distinctFrom_congr
        intro key
        rw [List.mem_append]
        exact ⟨Or.inr, fun hkey => hkey.elim (fun hpiece => hsubset hpiece) id⟩
      · rw [distinctFrom_cons_of_not_mem hmem, List.flatMap_cons, distinctFrom_append]
        congr 1
        apply ih hrest
        intro a ha hkey
        rcases List.mem_cons.mp hkey with heq | hkey
        · exact List.Subset.trans (hkeys a (List.mem_cons_of_mem _ ha) atom List.mem_cons_self heq)
            (List.subset_append_left _ _)
        · exact List.Subset.trans (hseen a (List.mem_cons_of_mem _ ha) hkey)
            (List.subset_append_right _ _)

theorem distinct_flatMap_distinct {h : Atom → List Atom}
    (hkeys : ∀ a ∈ list, ∀ b ∈ list, a.key = b.key → (h a).map key ⊆ (h b).map key) :
    distinct ((distinct list).flatMap h) = distinct (list.flatMap h) :=
  distinctFrom_flatMap hkeys fun _ _ hseen => absurd hseen List.not_mem_nil

theorem distinct_append_distinct (front list back : List Atom) :
    distinct (front ++ distinct list ++ back) = distinct (front ++ list ++ back) := by
  have hpart : ∀ seen, distinctFrom seen (distinct list) = distinctFrom seen list := by
    intro seen
    have hflat := @distinctFrom_flatMap [] seen list (fun a => [a])
      (fun a _ b _ hkey => by simp [hkey]) (fun _ _ hseen => absurd hseen List.not_mem_nil)
    rwa [List.flatMap_singleton', List.flatMap_singleton'] at hflat
  have hseen : ∀ key, key ∈ (front ++ distinct list).map Atom.key ++ [] ↔
      key ∈ (front ++ list).map Atom.key ++ [] := by
    intro key
    rw [List.append_nil, List.append_nil, List.map_append, List.map_append, List.mem_append,
      List.mem_append, mem_map_key_distinct]
  have hback := distinctFrom_congr hseen back
  unfold distinct at hpart hback ⊢
  rw [distinctFrom_append, distinctFrom_append [] (front ++ list), distinctFrom_append,
    distinctFrom_append [] front list, hpart, hback]

theorem map_key_distinctFrom (h : list.map key = other.map key) :
    (distinctFrom seen list).map key = (distinctFrom seen other).map key := by
  induction list generalizing other seen with
  | nil =>
      rw [List.map_eq_nil_iff.mp h.symm]
  | cons atom rest ih =>
      cases other with
      | nil => cases h
      | cons atom' rest' =>
          rw [List.map_cons, List.map_cons, List.cons.injEq] at h
          by_cases hmem : atom.key ∈ seen
          · rw [distinctFrom_cons_of_mem hmem, distinctFrom_cons_of_mem (h.1 ▸ hmem), ih h.2]
          · rw [distinctFrom_cons_of_not_mem hmem, distinctFrom_cons_of_not_mem (h.1 ▸ hmem),
              List.map_cons, List.map_cons, h.1, ih h.2]

end Atom

/-!
## Reductions

An element that is no unit is left, or another one that equals it and contributes no less.  So a
part of a list may be trimmed first, and may be replaced by one of which the same is left, or of
which equality sees the same left.
-/

/-- What an associative law makes of elements: which of them absorb a list, which are dropped from
it, and whether later duplicates are. -/
structure Reduction where
  absorbs : Atom → Bool
  isUnit : Atom → Bool
  idempotent : Bool
  absorbs_congr : ∀ a b : Atom, a.key = b.key → absorbs a = absorbs b
  isUnit_congr : ∀ a b : Atom, a.key = b.key → isUnit a = isUnit b

namespace Reduction

variable {reduction : Reduction} {list other : List Atom}

def trimmed (reduction : Reduction) (list : List Atom) : List Atom :=
  let proper := list.filter (!reduction.isUnit ·)
  if reduction.idempotent then distinct proper else proper

def residue (reduction : Reduction) (list : List Atom) : Option (List Atom) :=
  if list.any reduction.absorbs then none else some (reduction.trimmed list)

theorem trimmed_sublist (reduction : Reduction) (list : List Atom) :
    (reduction.trimmed list).Sublist list := by
  unfold trimmed
  split
  · exact (distinct_sublist _).trans List.filter_sublist
  · exact List.filter_sublist

theorem isUnit_of_mem_trimmed {atom : Atom} (h : atom ∈ reduction.trimmed list) :
    reduction.isUnit atom = false := by
  have hproper : atom ∈ list.filter (!reduction.isUnit ·) := by
    unfold trimmed at h
    split at h
    · exact (distinct_sublist _).subset h
    · exact h
  simpa using (List.mem_filter.mp hproper).2

theorem key_mem_trimmed {atom : Atom} (h : atom ∈ list) (hunit : reduction.isUnit atom = false) :
    atom.key ∈ (reduction.trimmed list).map key := by
  have hproper : atom ∈ list.filter (!reduction.isUnit ·) :=
    List.mem_filter.mpr ⟨h, by rw [hunit]; rfl⟩
  unfold trimmed
  split
  · exact mem_map_key_distinct.mpr (List.mem_map_of_mem hproper)
  · exact List.mem_map_of_mem hproper

theorem filter_trimmed (reduction : Reduction) (list : List Atom) :
    (reduction.trimmed list).filter (!reduction.isUnit ·) = reduction.trimmed list := by
  rw [List.filter_eq_self]
  intro atom hatom
  rw [isUnit_of_mem_trimmed hatom]
  rfl

theorem trimmed_trimmed (reduction : Reduction) (list : List Atom) :
    reduction.trimmed (reduction.trimmed list) = reduction.trimmed list := by
  have hfilter := filter_trimmed reduction list
  unfold trimmed at hfilter ⊢
  simp only [hfilter]
  split
  · exact distinct_distinct _
  · rfl

theorem trimmed_append_trimmed (reduction : Reduction) (front list back : List Atom) :
    reduction.trimmed (front ++ reduction.trimmed list ++ back) =
      reduction.trimmed (front ++ list ++ back) := by
  have hfilter := filter_trimmed reduction list
  unfold trimmed at hfilter ⊢
  simp only [List.filter_append, hfilter]
  split
  · exact distinct_append_distinct _ _ _
  · rfl

theorem residue_eq_none_iff : reduction.residue list = none ↔
    ∃ atom ∈ list, reduction.absorbs atom = true := by
  unfold residue
  rw [← List.any_eq_true]
  split <;> simp_all

theorem residue_of_not_absorbs (h : ∀ atom ∈ list, reduction.absorbs atom = false) :
    reduction.residue list = some (reduction.trimmed list) := by
  unfold residue
  rw [if_neg]
  rw [List.any_eq_true]
  rintro ⟨atom, hatom, habsorbs⟩
  rw [h atom hatom] at habsorbs
  cases habsorbs

theorem residue_of_isUnit {atom : Atom} (habsorbs : reduction.absorbs atom = false)
    (hunit : reduction.isUnit atom = true) : reduction.residue [atom] = some [] := by
  rw [residue_of_not_absorbs (by simpa using habsorbs), trimmed,
    List.filter_cons_of_neg (by rw [hunit]; decide)]
  split <;> rfl

theorem residue_of_absorbs {atom : Atom} (habsorbs : reduction.absorbs atom = true) :
    reduction.residue [atom] = none :=
  residue_eq_none_iff.mpr ⟨atom, List.mem_singleton_self atom, habsorbs⟩

theorem residue_eq_some {rest : List Atom} (h : reduction.residue list = some rest) :
    (∀ atom ∈ list, reduction.absorbs atom = false) ∧ reduction.trimmed list = rest := by
  unfold residue at h
  split at h
  · cases h
  · rename_i hany
    refine ⟨fun atom hatom => ?_, Option.some.inj h⟩
    rw [Bool.eq_false_iff]
    exact fun habsorbs => hany (List.any_eq_true.mpr ⟨atom, hatom, habsorbs⟩)

theorem residue_of_residue {rest : List Atom} (h : reduction.residue list = some rest) :
    reduction.residue rest = some rest := by
  rcases residue_eq_some h with ⟨habsorbs, rfl⟩
  rw [residue_of_not_absorbs fun atom hatom =>
    habsorbs atom ((trimmed_sublist reduction list).subset hatom), trimmed_trimmed]

theorem residue_append {part part' : List Atom}
    (h : reduction.residue part = reduction.residue part') (front back : List Atom) :
    reduction.residue (front ++ part ++ back) = reduction.residue (front ++ part' ++ back) := by
  cases hpart : reduction.residue part with
  | none =>
      have hnone : ∀ {part : List Atom}, reduction.residue part = none →
          reduction.residue (front ++ part ++ back) = none := by
        intro part hpart
        rcases residue_eq_none_iff.mp hpart with ⟨atom, hatom, habsorbs⟩
        exact residue_eq_none_iff.mpr
          ⟨atom, List.mem_append_left _ (List.mem_append_right _ hatom), habsorbs⟩
      rw [hnone hpart, hnone (h.symm.trans hpart)]
  | some rest =>
      rcases residue_eq_some hpart with ⟨habsorbs, htrimmed⟩
      rcases residue_eq_some (h.symm.trans hpart) with ⟨habsorbs', htrimmed'⟩
      have hany : part.any reduction.absorbs = part'.any reduction.absorbs := by
        rw [List.any_eq_false.mpr fun atom hatom => Bool.eq_false_iff.mp (habsorbs atom hatom),
          List.any_eq_false.mpr fun atom hatom => Bool.eq_false_iff.mp (habsorbs' atom hatom)]
      unfold residue
      simp only [List.any_append, hany]
      rw [← trimmed_append_trimmed reduction front part, htrimmed, ← htrimmed',
        trimmed_append_trimmed]

theorem residue_append_congr {part part' rest rest' : List Atom}
    (hpart : reduction.residue part = reduction.residue part')
    (hrest : reduction.residue rest = reduction.residue rest') :
    reduction.residue (part ++ rest) = reduction.residue (part' ++ rest') := by
  have hfront := residue_append hpart [] rest
  have hback := residue_append hrest part' []
  rw [List.nil_append, List.nil_append] at hfront
  rw [List.append_nil, List.append_nil] at hback
  rw [hfront, hback]

theorem filter_eq_nil_of_trimmed (h : reduction.trimmed list = []) :
    list.filter (!reduction.isUnit ·) = [] := by
  rw [List.filter_eq_nil_iff]
  intro atom hatom hunit
  have hkey := key_mem_trimmed hatom (by simpa using hunit)
  rw [h] at hkey
  cases hkey

theorem exists_trimmed {h : Atom → List Atom} (hkeys : reduction.idempotent = true →
    ∀ a ∈ list, ∀ b ∈ list, a.key = b.key → (h a).map key ⊆ (h b).map key) {a : Atom}
    (ha : a ∈ list) (hunit : reduction.isUnit a = false) :
    ∃ b ∈ reduction.trimmed list, (h a).map key ⊆ (h b).map key := by
  cases hidempotent : reduction.idempotent with
  | true =>
      rcases List.mem_map.mp (key_mem_trimmed ha hunit) with ⟨b, hb, hkey⟩
      exact ⟨b, hb, hkeys hidempotent a ha b ((trimmed_sublist reduction list).subset hb) hkey.symm⟩
  | false =>
      refine ⟨a, ?_, List.Subset.refl _⟩
      rw [trimmed, hidempotent]
      exact List.mem_filter.mpr ⟨ha, by rw [hunit]; rfl⟩

/-- A list may be trimmed before its elements give way to what they contribute elsewhere, where
duplicates are dropped if they are here.  In this case equal elements have to contribute equal
ones; and units must contribute nothing but units. -/
theorem residue_flatMap_trimmed_of {outer : Reduction} {h : Atom → List Atom}
    (hidempotent : reduction.idempotent = true → outer.idempotent = true)
    (hkeys : reduction.idempotent = true →
      ∀ a ∈ list, ∀ b ∈ list, a.key = b.key → (h a).map key ⊆ (h b).map key)
    (hunits : ∀ a ∈ list, reduction.isUnit a = true → outer.residue (h a) = some []) :
    outer.residue ((reduction.trimmed list).flatMap h) = outer.residue (list.flatMap h) := by
  have hsubset := (trimmed_sublist reduction list).subset
  cases hresidue : outer.residue (list.flatMap h) with
  | none =>
      rcases residue_eq_none_iff.mp hresidue with ⟨piece, hpiece, habsorbs⟩
      rcases List.mem_flatMap.mp hpiece with ⟨a, ha, hpiece⟩
      have hunit : reduction.isUnit a = false := by
        rw [Bool.eq_false_iff]
        intro hunit
        rw [(residue_eq_some (hunits a ha hunit)).1 piece hpiece] at habsorbs
        cases habsorbs
      rcases exists_trimmed hkeys ha hunit with ⟨b, hb, hcontributes⟩
      rcases List.mem_map.mp (hcontributes (List.mem_map_of_mem hpiece)) with
        ⟨piece', hpiece', hkey⟩
      exact residue_eq_none_iff.mpr ⟨piece', List.mem_flatMap.mpr ⟨b, hb, hpiece'⟩,
        (outer.absorbs_congr _ _ hkey).trans habsorbs⟩
  | some rest =>
      rcases residue_eq_some hresidue with ⟨habsorbs, rfl⟩
      rw [residue_of_not_absorbs fun piece hpiece => by
        rcases List.mem_flatMap.mp hpiece with ⟨a, ha, hpiece⟩
        exact habsorbs piece (List.mem_flatMap.mpr ⟨a, hsubset ha, hpiece⟩)]
      have hproper : (list.filter (!reduction.isUnit ·)).flatMap
          (fun a => (h a).filter (!outer.isUnit ·)) =
          list.flatMap fun a => (h a).filter (!outer.isUnit ·) := by
        clear hkeys hsubset hresidue habsorbs
        induction list with
        | nil => rfl
        | cons atom rest ih =>
            rw [List.forall_mem_cons] at hunits
            cases hunit : reduction.isUnit atom with
            | true =>
                rw [List.filter_cons_of_neg (by rw [hunit]; decide), List.flatMap_cons,
                  filter_eq_nil_of_trimmed (residue_eq_some (hunits.1 hunit)).2, List.nil_append,
                  ih hunits.2]
            | false =>
                rw [List.filter_cons_of_pos (by rw [hunit]; rfl), List.flatMap_cons,
                  List.flatMap_cons, ih hunits.2]
      unfold trimmed
      simp only [List.filter_flatMap]
      cases hreduces : reduction.idempotent with
      | true =>
          rw [hidempotent hreduces, if_pos rfl, if_pos rfl, if_pos rfl, distinct_flatMap_distinct,
            hproper]
          intro a ha b hb hkey key hmem
          rcases List.mem_map.mp hmem with ⟨piece, hpiece, rfl⟩
          rcases List.mem_filter.mp hpiece with ⟨hpiece, hunit⟩
          have hcontributes := hkeys hreduces a (List.mem_of_mem_filter ha) b
            (List.mem_of_mem_filter hb) hkey
          rcases List.mem_map.mp (hcontributes (List.mem_map_of_mem hpiece)) with
            ⟨piece', hpiece', hkey'⟩
          rw [← outer.isUnit_congr _ _ hkey'] at hunit
          exact List.mem_map.mpr ⟨piece', List.mem_filter.mpr ⟨hpiece', hunit⟩, hkey'⟩
      | false => rw [if_neg Bool.false_ne_true, hproper]

theorem residue_flatMap_trimmed {h : Atom → List Atom}
    (hkeys : reduction.idempotent = true →
      ∀ a ∈ list, ∀ b ∈ list, a.key = b.key → (h a).map key ⊆ (h b).map key)
    (hunits : ∀ a ∈ list, reduction.isUnit a = true → reduction.residue (h a) = some []) :
    reduction.residue ((reduction.trimmed list).flatMap h) =
      reduction.residue (list.flatMap h) :=
  residue_flatMap_trimmed_of id hkeys hunits

theorem map_key_residue (h : list.map key = other.map key) :
    (reduction.residue list).map (List.map key) =
      (reduction.residue other).map (List.map key) := by
  have hparts : list.any reduction.absorbs = other.any reduction.absorbs ∧
      (list.filter (!reduction.isUnit ·)).map key =
        (other.filter (!reduction.isUnit ·)).map key := by
    induction list generalizing other with
    | nil =>
        rw [List.map_eq_nil_iff.mp h.symm]
        exact ⟨rfl, rfl⟩
    | cons atom rest ih =>
        cases other with
        | nil => cases h
        | cons atom' rest' =>
            rw [List.map_cons, List.map_cons, List.cons.injEq] at h
            rcases ih h.2 with ⟨hany, hfilter⟩
            refine ⟨by rw [List.any_cons, List.any_cons, hany, reduction.absorbs_congr _ _ h.1], ?_⟩
            rw [List.filter_cons, List.filter_cons, reduction.isUnit_congr _ _ h.1]
            split
            · rw [List.map_cons, List.map_cons, h.1, hfilter]
            · exact hfilter
  unfold residue trimmed
  rw [hparts.1]
  split
  · rfl
  · split
    · exact congrArg some (map_key_distinctFrom hparts.2)
    · exact congrArg some hparts.2

theorem map_key_residue_append {part part' : List Atom}
    (h : (reduction.residue part).map (List.map key) =
      (reduction.residue part').map (List.map key)) (front back : List Atom) :
    (reduction.residue (front ++ part ++ back)).map (List.map key) =
      (reduction.residue (front ++ part' ++ back)).map (List.map key) := by
  cases hpart : reduction.residue part with
  | none =>
      rw [hpart, Option.map_none] at h
      have hpart' : reduction.residue part' = none := Option.map_eq_none_iff.mp h.symm
      rw [residue_append (hpart.trans hpart'.symm)]
  | some left =>
      rw [hpart, Option.map_some] at h
      rcases Option.map_eq_some_iff.mp h.symm with ⟨left', hpart', hkeys⟩
      rw [residue_append (hpart.trans (residue_of_residue hpart).symm),
        residue_append (hpart'.trans (residue_of_residue hpart').symm)]
      exact map_key_residue (by simp only [List.map_append, hkeys])

theorem map_key_residue_flatMap {α : Type} {list : List α} {h h' : α → List Atom}
    (hall : ∀ a ∈ list, (reduction.residue (h a)).map (List.map key) =
      (reduction.residue (h' a)).map (List.map key)) :
    (reduction.residue (list.flatMap h)).map (List.map key) =
      (reduction.residue (list.flatMap h')).map (List.map key) := by
  induction list with
  | nil => rfl
  | cons a rest ih =>
      rw [List.forall_mem_cons] at hall
      have hfront := map_key_residue_append hall.1 [] (rest.flatMap h)
      have hback := map_key_residue_append (ih hall.2) (h' a) []
      rw [List.nil_append, List.nil_append] at hfront
      rw [List.append_nil, List.append_nil] at hback
      rw [List.flatMap_cons, List.flatMap_cons, hfront, hback]

end Reduction

end Equational
