import Equational.Proofs.Arrangement
import Equational.Proofs.SubjectOrder

/-!
# How many constants are taken away

As long as the hash has no collision, elimination looks at constants as at a
multiset: of every constant it takes as many away from both sides as there are
on the side with fewer.  What it leaves of a constant is what the patterns have
more of it than the subjects, and a match ends here if this is something for a
constant that has no parts.
-/

namespace Equational

open Atom

namespace Elimination

/-- A list is divided into what is taken away from it and what is left, both in their old order. -/
def Divided {α : Type} (list taken left : List α) : Prop :=
  ∃ flags : List Bool, flags.length = list.length ∧ taken = pick flags list ∧
    left = skip flags list

theorem Divided.perm {α : Type} {list taken left : List α} (h : Divided list taken left) :
    (taken ++ left).Perm list := by
  rcases h with ⟨flags, hlength, rfl, rfl⟩
  exact pick_append_skip_perm hlength

/-- Of some constant without parts there are more among the patterns than among the subjects. -/
def Lacking (patterns subjects : List Atom) : Prop :=
  ∃ pattern ∈ patterns, pattern.isConstant = true ∧ pattern.isStructured = false ∧
    subjects.count pattern < patterns.count pattern

section

variable {among : Atom → Prop} {atom : Atom} {list other patterns subjects : List Atom}

theorem count_eq_countP (h : NoCollision among) (hlist : ∀ a ∈ list, among a) (hatom : among atom)
    (hconstant : atom.isConstant = true) :
    list.count atom = list.countP (Sequence.isConstantOf atom.fingerprint) :=
  List.countP_congr fun a ha => by rw [isConstantOf_eq_beq (h a atom (hlist a ha) hatom) hconstant]

theorem count_pick_paired (h : NoCollision among) (hlist : ∀ a ∈ list, among a)
    (hother : ∀ a ∈ other, among a) (hatom : among atom) (hconstant : atom.isConstant = true) :
    (pick (paired other list) list).count atom = min (list.count atom) (other.count atom) := by
  have htaken : ∀ a ∈ pick (paired other list) list,
      (a == atom) = true ↔ (a.fingerprint == atom.fingerprint) = true := by
    intro a ha
    have hlike := h a atom (hlist a (mem_of_mem_pick ha)) hatom
    rw [← isConstantOf_eq_beq hlike hconstant, isConstantOf_iff,
      and_iff_right (isConstant_of_mem_pick ha), beq_iff_eq]
  have hcount := count_pairedFrom atom.fingerprint other [] list
  rw [List.countP_nil, Nat.zero_min, Nat.zero_add, List.nil_append] at hcount
  rw [count_eq_countP h hlist hatom hconstant, count_eq_countP h hother hatom hconstant, ← hcount,
    List.count, List.count, List.countP_map]
  exact List.countP_congr htaken

theorem map_term_pick_perm (h : NoCollision among) (hpatterns : ∀ a ∈ patterns, among a)
    (hsubjects : ∀ a ∈ subjects, among a) :
    ((pick (paired subjects patterns) patterns).map term).Perm
      ((pick (paired patterns subjects) subjects).map term) := by
  rcases exists_chosen (faithful_of_noCollision h hpatterns hsubjects) with ⟨chosen, hperm, hchosen⟩
  have hmem : ∀ s ∈ chosen, among s := fun s hs =>
    hsubjects s (mem_of_mem_pick (hperm.subset hs))
  have hterms : chosen.map term = (pick (paired subjects patterns) patterns).map term := by
    refine map_term_of_forall₂ (List.forall₂_iff_zip.mpr ⟨hchosen.length_eq, fun hzip => ?_⟩)
    have hequal := (List.forall₂_iff_zip.mp hchosen).2 hzip
    exact h.sameTerm (hmem _ (List.of_mem_zip hzip).1)
      (hpatterns _ (mem_of_mem_pick (List.of_mem_zip hzip).2)) hequal.2
  rw [← hterms]
  exact hperm.map term

theorem count_skip_paired (h : NoCollision among) (hlist : ∀ a ∈ list, among a)
    (hother : ∀ a ∈ other, among a) (hatom : among atom) (hconstant : atom.isConstant = true) :
    (skip (paired other list) list).count atom = list.count atom - other.count atom := by
  have hsplit := (pick_append_skip_perm (length_paired other list)).count_eq atom
  rw [List.count_append, count_pick_paired h hlist hother hatom hconstant] at hsplit
  omega

theorem goesOn_iff_not_lacking {elements : List Element} (h : NoCollision among)
    (hpatterns : ∀ element ∈ elements, among element.pattern)
    (hsubjects : ∀ a ∈ subjects, among a) :
    GoesOn elements subjects ↔ ¬Lacking (elements.map (·.pattern)) subjects := by
  have hatoms : ∀ a ∈ elements.map (·.pattern), among a := List.forall_mem_map.mpr hpatterns
  have hcount : ∀ pattern ∈ elements.map (·.pattern), pattern.isConstant = true →
      (subjects.count pattern < (elements.map (·.pattern)).count pattern ↔
        ∃ left ∈ (patternsLeft elements subjects).map (·.pattern), (left == pattern) = true) := by
    intro pattern hpattern hconstant
    have hleft := count_skip_paired h hatoms hsubjects (hatoms pattern hpattern) hconstant
    rw [skip_map] at hleft
    rw [← List.countP_pos_iff, ← List.count, patternsLeft, hleft]
    omega
  constructor
  · rintro hgoes ⟨pattern, hpattern, hconstant, hno, hless⟩
    rcases (hcount pattern hpattern hconstant).mp hless with ⟨left, hleft, hbeq⟩
    rcases List.mem_map.mp hleft with ⟨element, helement, rfl⟩
    have hsame := h.sameTerm (hpatterns element (mem_of_mem_skip helement))
      (hatoms pattern hpattern) hbeq
    have hparts := hgoes element helement (hsame.isConstant.trans hconstant)
    rw [hsame.isStructured, hno] at hparts
    cases hparts
  · intro hlacking element helement hconstant
    by_contra hno
    have hpattern : element.pattern ∈ elements.map (·.pattern) :=
      List.mem_map_of_mem (mem_of_mem_skip helement)
    exact hlacking ⟨element.pattern, hpattern, hconstant, Bool.eq_false_iff.mpr hno,
      (hcount _ hpattern hconstant).mpr
        ⟨element.pattern, List.mem_map_of_mem helement, Atom.beq_refl element.pattern⟩⟩

end

end Elimination

namespace Sequence

open Elimination

/-- Elimination fails if a constant without parts is lacking.  Otherwise it divides both lists, and
takes the same constants away from both: of every one as many as there are on the side with
fewer. -/
theorem eliminateConstants_exact {among : Atom → Prop} (hcollision : NoCollision among)
    {patterns : List Element} {subjects : Sequence Atom}
    (hpatterns : ∀ element ∈ patterns, among element.pattern)
    (hsubjects : ∀ atom ∈ subjects.elements, among atom) :
    ((∃ failure, (eliminateConstants patterns subjects).value = .error failure) ↔
      Lacking (patterns.map (·.pattern)) subjects.elements) ∧
    (¬Lacking (patterns.map (·.pattern)) subjects.elements →
      ∃ elements left atoms rest,
        (eliminateConstants patterns subjects).value = .ok (left, rest) ∧
        Divided patterns elements left ∧ Divided subjects.elements atoms rest ∧
        (∀ atom ∈ atoms, atom.isConstant = true) ∧
        ((elements.map (·.pattern)).map term).Perm (atoms.map term) ∧
        ∀ atom, among atom → atom.isConstant = true →
          (elements.map (·.pattern)).count atom = min
            ((patterns.map (·.pattern)).count atom) (subjects.elements.count atom) ∧
          atoms.count atom = min
            ((patterns.map (·.pattern)).count atom) (subjects.elements.count atom)) := by
  have hatoms : ∀ a ∈ patterns.map (·.pattern), among a := List.forall_mem_map.mpr hpatterns
  have hfaithful := faithful_of_noCollision hcollision hatoms hsubjects
  have hgoes := goesOn_iff_not_lacking hcollision hpatterns hsubjects
  have hok : ¬Lacking (patterns.map (·.pattern)) subjects.elements →
      (eliminateConstants patterns subjects).value =
        .ok (patternsLeft patterns subjects.elements, subjectsLeft patterns subjects.elements) :=
    fun hlacking => eliminateConstants_of_goesOn hfaithful (hgoes.mpr hlacking)
  refine ⟨⟨?_, fun hlacking => ?_⟩, fun hlacking => ?_⟩
  · rintro ⟨failure, hfailure⟩
    by_contra hlacking
    rw [hok hlacking] at hfailure
    cases hfailure
  · exact eliminateConstants_of_not_goesOn hfaithful fun h => hgoes.mp h hlacking
  · refine ⟨pick (paired subjects.elements (patterns.map (·.pattern))) patterns, _,
      pick (paired (patterns.map (·.pattern)) subjects.elements) subjects.elements, _,
      hok hlacking, ⟨_, by simp, rfl, rfl⟩, ⟨_, by simp, rfl, rfl⟩,
      fun atom => isConstant_of_mem_pick, ?_, ?_⟩
    · rw [← pick_map]
      exact map_term_pick_perm hcollision hatoms hsubjects
    · intro atom hatom hconstant
      rw [← pick_map, count_pick_paired hcollision hatoms hsubjects hatom hconstant,
        count_pick_paired hcollision hsubjects hatoms hatom hconstant, Nat.min_comm]
      exact ⟨rfl, rfl⟩

def numberElements (numbers : List Int64) : List Element :=
  listElements Engine.idle.evaluate (numbers.map integer ++ [free "x" any])

/-- A second one is lacking.  A single one is taken away once, from both sides. -/
theorem eliminateConstants_exact_numbers :
    (∃ failure, (eliminateConstants (numberElements [1, 1])
        ⟨.orderless, [integer 2, integer 1, integer 2]⟩).value = .error failure) ∧
      ∃ elements left atoms rest, (eliminateConstants (numberElements [1])
          ⟨.orderless, [integer 2, integer 1, integer 1]⟩).value = .ok (left, rest) ∧
        Divided (numberElements [1]) elements left ∧
        Divided [integer 2, integer 1, integer 1] atoms rest ∧
        (elements.map (·.pattern)).count (integer 1) = 1 ∧ atoms.count (integer 1) = 1 := by
  have hpatterns : ∀ element ∈ numberElements [1, 1], element.pattern ∈
      [integer 1, free "x" any, free "y" any] ++ [integer 2, integer 1, integer 3, integer 2] := by
    simp [numberElements, listElements]
  have hfew : ∀ element ∈ numberElements [1], element.pattern ∈
      [integer 1, free "x" any, free "y" any] ++ [integer 2, integer 1, integer 3, integer 2] := by
    simp [numberElements, listElements]
  constructor
  · have h := @eliminateConstants_exact _ noCollision_numbers _
      ⟨.orderless, [integer 2, integer 1, integer 2]⟩ hpatterns (by simp)
    exact h.1.mpr ⟨integer 1, by simp [numberElements, listElements], by decide, by decide,
      by decide +kernel⟩
  · have h := @eliminateConstants_exact _ noCollision_numbers _
      ⟨.orderless, [integer 2, integer 1, integer 1]⟩ hfew (by simp)
    have hlacking : ¬Lacking ((numberElements [1]).map (·.pattern))
        [integer 2, integer 1, integer 1] := by
      unfold Lacking
      decide +kernel
    rcases h.2 hlacking with
      ⟨elements, left, atoms, rest, hvalue, hpatterns, hsubjects, -, -, hcount⟩
    have hone := hcount (integer 1) (by simp) (by decide)
    exact ⟨elements, left, atoms, rest, hvalue, hpatterns, hsubjects,
      hone.1.trans (by decide +kernel), hone.2.trans (by decide +kernel)⟩

end Sequence

end Equational
