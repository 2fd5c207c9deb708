import Mathlib.Data.List.Perm.Basic
import Mathlib.Data.List.Count
import Mathlib.Tactic.ByContra
import Equational.Matching.Elimination
import Equational.Proofs.Bare

/-!
# What elimination takes away

A pool lists, for every fingerprint, the positions of the constants that have
it.  Elimination goes through the pools and pairs positions of patterns with
positions of subjects.  Seen from the lists themselves, an element is taken away
if it is a constant and fewer of its equals stand before it than there are
equals on the other side.
-/

namespace Equational

namespace Digest

theorem compare_eq (a b : Digest) : compare a b = compare a.words b.words := by
  change compareLex (compareOn words) (fun _ _ => .eq) a b = _
  simp [compareLex, compareOn]

theorem compare_eq_eq_iff {a b : Digest} : compare a b = .eq ↔ a = b := by
  rw [compare_eq, Std.compare_eq_iff_eq]
  cases a
  cases b
  simp [words]

theorem compare_lt_trans {a b c : Digest} (hab : compare a b = .lt) (hbc : compare b c = .lt) :
    compare a c = .lt := by
  rw [compare_eq] at hab hbc ⊢
  exact Std.TransCmp.lt_trans hab hbc

theorem compare_eq_gt_iff {a b : Digest} : compare a b = .gt ↔ compare b a = .lt := by
  rw [compare_eq, compare_eq]
  exact Std.OrientedCmp.gt_iff_lt

theorem ne_of_compare_lt {a b : Digest} (h : compare a b = .lt) : a ≠ b := by
  intro heq
  rw [compare_eq_eq_iff.mpr heq] at h
  cases h

end Digest

/-!
## Pools

A pool holds with each fingerprint the positions of its constants, in ascending order.
-/

namespace Sequence

def Pool.Ascending (pool : Pool) : Prop :=
  pool.Pairwise fun entry other => compare entry.1 other.1 = .lt

theorem Pool.lookup_cons (entry : Digest × List Nat) (pool : Pool) (digest : Digest) :
    List.lookup digest (entry :: pool) =
      if digest = entry.1 then some entry.2 else pool.lookup digest := by
  rw [List.lookup_cons]
  by_cases heq : digest = entry.1
  · simp [heq]
  · have hne : (digest == entry.1) = false := by simpa using heq
    rw [hne, if_neg heq]

theorem Pool.Ascending.lookup_eq_none {digest : Digest} {pool : Pool}
    (h : ∀ entry ∈ pool, compare digest entry.1 = .lt) : pool.lookup digest = none := by
  rw [List.lookup_eq_none_iff]
  intro entry hentry
  simpa using Digest.ne_of_compare_lt (h entry hentry)

theorem mem_addPosition {digest : Digest} {position : Nat} {pool : Pool}
    {entry : Digest × List Nat} (h : entry ∈ addPosition digest position pool) :
    entry.1 = digest ∨ ∃ other ∈ pool, other.1 = entry.1 := by
  induction pool with
  | nil =>
      rw [addPosition, List.mem_singleton] at h
      exact Or.inl (by rw [h])
  | cons first rest ih =>
      unfold addPosition at h
      split at h
      · rcases List.mem_cons.mp h with rfl | h
        · exact Or.inl rfl
        · exact Or.inr ⟨entry, h, rfl⟩
      · rcases List.mem_cons.mp h with rfl | h
        · exact Or.inr ⟨first, List.mem_cons_self, rfl⟩
        · exact Or.inr ⟨entry, List.mem_cons_of_mem _ h, rfl⟩
      · rcases List.mem_cons.mp h with rfl | h
        · exact Or.inr ⟨entry, List.mem_cons_self, rfl⟩
        · rcases ih h with heq | ⟨other, hother, heq⟩
          · exact Or.inl heq
          · exact Or.inr ⟨other, List.mem_cons_of_mem _ hother, heq⟩

theorem ascending_addPosition (digest : Digest) (position : Nat) {pool : Pool}
    (h : pool.Ascending) : Pool.Ascending (addPosition digest position pool) := by
  induction pool with
  | nil => exact List.pairwise_singleton _ _
  | cons first rest ih =>
      have hfirst := List.pairwise_cons.mp h
      unfold addPosition
      split
      · rename_i hlt
        refine List.pairwise_cons.mpr ⟨?_, h⟩
        intro entry hentry
        rcases List.mem_cons.mp hentry with rfl | hentry
        · exact hlt
        · exact Digest.compare_lt_trans hlt (hfirst.1 entry hentry)
      · exact List.pairwise_cons.mpr ⟨hfirst.1, hfirst.2⟩
      · rename_i hgt
        refine List.pairwise_cons.mpr ⟨?_, ih hfirst.2⟩
        intro entry hentry
        rcases mem_addPosition hentry with heq | ⟨other, hother, heq⟩
        · rw [heq]
          exact Digest.compare_eq_gt_iff.mp hgt
        · rw [← heq]
          exact hfirst.1 other hother

theorem lookup_addPosition (digest : Digest) (position : Nat) {pool : Pool}
    (h : pool.Ascending) (other : Digest) :
    ((addPosition digest position pool).lookup other).getD [] =
      if other = digest then (pool.lookup other).getD [] ++ [position]
      else (pool.lookup other).getD [] := by
  induction pool with
  | nil =>
      by_cases heq : other = digest <;> simp [addPosition, heq, Pool.lookup_cons]
  | cons first rest ih =>
      have hfirst := List.pairwise_cons.mp h
      unfold addPosition
      split
      · rename_i hlt
        by_cases heq : other = digest
        · subst heq
          have hnone : (first :: rest).lookup other = none := by
            refine Pool.Ascending.lookup_eq_none ?_
            intro entry hentry
            rcases List.mem_cons.mp hentry with rfl | hentry
            · exact hlt
            · exact Digest.compare_lt_trans hlt (hfirst.1 entry hentry)
          simp [hnone]
        · simp [Pool.lookup_cons, heq]
      · rename_i heq
        have hdigest := Digest.compare_eq_eq_iff.mp heq
        subst hdigest
        by_cases hother : other = first.1
        · subst hother
          simp [Pool.lookup_cons]
        · simp [Pool.lookup_cons, hother]
      · rename_i hgt
        have hne : first.1 ≠ digest := Digest.ne_of_compare_lt (Digest.compare_eq_gt_iff.mp hgt)
        by_cases hother : other = first.1
        · subst hother
          simp [Pool.lookup_cons, hne]
        · simpa [Pool.lookup_cons, hother] using ih hfirst.2

/-- The positions of the constants of a fingerprint, where the first element has the given
position. -/
def constantsAt (digest : Digest) : Nat → List Atom → List Nat
  | _, [] => []
  | position, atom :: rest =>
    if atom.isConstant && atom.fingerprint == digest then
      position :: constantsAt digest (position + 1) rest
    else constantsAt digest (position + 1) rest

theorem foldl_addPosition (list : List Atom) (position : Nat) {pool : Pool}
    (h : pool.Ascending) :
    let final := (list.zipIdx position).foldl (fun pool element =>
      if element.1.isConstant then addPosition element.1.fingerprint element.2 pool else pool) pool
    Pool.Ascending final ∧ ∀ digest,
      (final.lookup digest).getD [] = (pool.lookup digest).getD [] ++
        constantsAt digest position list := by
  induction list generalizing position pool with
  | nil => simpa [constantsAt] using h
  | cons atom rest ih =>
      rw [List.zipIdx_cons, List.foldl_cons]
      by_cases hconstant : atom.isConstant = true
      · simp only [hconstant, if_true]
        have hnext := ih (position + 1)
          (ascending_addPosition atom.fingerprint position h)
        refine ⟨hnext.1, ?_⟩
        intro digest
        rw [hnext.2, lookup_addPosition _ _ h, constantsAt]
        by_cases hdigest : digest = atom.fingerprint
        · subst hdigest
          simp [hconstant]
        · have hne : (atom.fingerprint == digest) = false := by
            simpa using fun heq => hdigest heq.symm
          simp [hdigest, hne]
      · have hnext := ih (position + 1) h
        simp only [hconstant, Bool.false_eq_true, if_false] at hnext ⊢
        refine ⟨hnext.1, ?_⟩
        intro digest
        rw [hnext.2, constantsAt]
        simp [hconstant]

theorem ascending_constantPool (list : List Atom) : Pool.Ascending (constantPool list) :=
  (foldl_addPosition list 0 List.Pairwise.nil).1

theorem lookup_constantPool (list : List Atom) (digest : Digest) :
    ((constantPool list).lookup digest).getD [] = constantsAt digest 0 list := by
  exact (@foldl_addPosition list 0 [] List.Pairwise.nil).2 digest

theorem lookup_of_mem {pool : Pool} (h : pool.Ascending) {digest : Digest} {positions : List Nat}
    (hmem : (digest, positions) ∈ pool) : pool.lookup digest = some positions := by
  induction pool with
  | nil => cases hmem
  | cons first rest ih =>
      have hfirst := List.pairwise_cons.mp h
      rcases List.mem_cons.mp hmem with rfl | hmem
      · simp
      · have hne : digest ≠ first.1 :=
          fun heq => Digest.ne_of_compare_lt (hfirst.1 _ hmem) heq.symm
        simpa [Pool.lookup_cons, hne] using ih hfirst.2 hmem

theorem eq_constantsAt_of_mem {list : List Atom} {digest : Digest} {positions : List Nat}
    (hmem : (digest, positions) ∈ constantPool list) : positions = constantsAt digest 0 list := by
  rw [← lookup_constantPool, lookup_of_mem (ascending_constantPool list) hmem]
  rfl

theorem exists_mem_constantPool {list : List Atom} {digest : Digest}
    (hne : constantsAt digest 0 list ≠ []) :
    (digest, constantsAt digest 0 list) ∈ constantPool list := by
  cases hlookup : (constantPool list).lookup digest with
  | none =>
      rw [← lookup_constantPool, hlookup] at hne
      exact absurd rfl hne
  | some positions =>
      have heq := lookup_constantPool list digest
      rw [hlookup] at heq
      rw [← heq]
      rcases List.lookup_eq_some_iff.mp hlookup with ⟨front, back, hpool, -⟩
      rw [hpool]
      simp

def isConstantOf (digest : Digest) (atom : Atom) : Bool :=
  atom.isConstant && atom.fingerprint == digest

theorem mem_take_constantsAt {digest : Digest} {position n i : Nat} {list : List Atom} :
    i ∈ (constantsAt digest position list).take n ↔
      ∃ j atom, i = position + j ∧ list[j]? = some atom ∧ isConstantOf digest atom = true ∧
        (list.take j).countP (isConstantOf digest) < n := by
  induction list generalizing position n with
  | nil => simp [constantsAt]
  | cons first rest ih =>
      have hsplit : (∃ j atom, i = position + j ∧ (first :: rest)[j]? = some atom ∧
            isConstantOf digest atom = true ∧
            ((first :: rest).take j).countP (isConstantOf digest) < n) ↔
          (i = position ∧ isConstantOf digest first = true ∧ 0 < n) ∨
            ∃ j atom, i = position + 1 + j ∧ rest[j]? = some atom ∧
              isConstantOf digest atom = true ∧
              (first :: rest.take j).countP (isConstantOf digest) < n := by
        constructor
        · rintro ⟨j, atom, hi, hget, hatom, hcount⟩
          cases j with
          | zero =>
              rw [List.getElem?_cons_zero, Option.some_inj] at hget
              subst hget
              exact Or.inl ⟨hi, hatom, by simpa using hcount⟩
          | succ j =>
              exact Or.inr ⟨j, atom, by omega, by simpa using hget, hatom, by simpa using hcount⟩
        · rintro (⟨hi, hfirst, hn⟩ | ⟨j, atom, hi, hget, hatom, hcount⟩)
          · exact ⟨0, first, hi, rfl, hfirst, by simpa using hn⟩
          · exact ⟨j + 1, atom, by omega, by simpa using hget, hatom, by simpa using hcount⟩
      rw [hsplit, constantsAt]
      by_cases hfirst : isConstantOf digest first = true
      · have hcond : (first.isConstant && first.fingerprint == digest) = true := hfirst
        rw [if_pos hcond]
        cases n with
        | zero => simp
        | succ n =>
            rw [List.take_succ_cons, List.mem_cons, ih]
            simp [hfirst]
      · have hcond : ¬(first.isConstant && first.fingerprint == digest) = true := hfirst
        rw [if_neg hcond, ih]
        simp [hfirst]

theorem length_constantsAt (digest : Digest) (position : Nat) (list : List Atom) :
    (constantsAt digest position list).length = list.countP (isConstantOf digest) := by
  induction list generalizing position with
  | nil => rfl
  | cons first rest ih =>
      rw [constantsAt, List.countP_cons]
      by_cases hfirst : isConstantOf digest first = true
      · have hcond : (first.isConstant && first.fingerprint == digest) = true := hfirst
        rw [if_pos hcond, List.length_cons, ih, hfirst]
        rfl
      · have hcond : ¬(first.isConstant && first.fingerprint == digest) = true := hfirst
        rw [if_neg hcond, ih, if_neg hfirst]
        rfl

end Sequence

/-!
## Pairing

Where fingerprints tell constants apart, every candidate is as good as any
other, and the cursor passes over none.
-/

namespace Elimination

open Sequence

/-- Constants of one fingerprint on the two sides are equal. -/
def Faithful (patterns subjects : List Atom) : Prop :=
  ∀ p ∈ patterns, ∀ s ∈ subjects, p.isConstant = true → s.isConstant = true →
    p.fingerprint = s.fingerprint → (s == p) = true

/-- The positions hold patterns, each equal to the subject at every candidate. -/
def Pairable (patterns subjects : List Atom) (positions candidates : List Nat) : Prop :=
  ∀ p ∈ positions, ∃ pattern, patterns[p]? = some pattern ∧
    ∀ s ∈ candidates, ∃ subject, subjects[s]? = some subject ∧ (subject == pattern) = true

theorem Pairable.tail {patterns subjects : List Atom} {p : Nat} {ps candidates rest : List Nat}
    (h : Pairable patterns subjects (p :: ps) candidates) (hrest : rest ⊆ candidates) :
    Pairable patterns subjects ps rest := by
  intro q hq
  rcases h q (List.mem_cons_of_mem _ hq) with ⟨pattern, hget, hall⟩
  exact ⟨pattern, hget, fun s hs => hall s (hrest hs)⟩

theorem pair_ok {patterns subjects : List Atom} {positions candidates : List Nat} {taken : Taken}
    (h : Pairable patterns subjects positions candidates)
    (hrest : ∀ p ∈ positions.drop candidates.length, ∀ pattern, patterns[p]? = some pattern →
      pattern.isStructured = true) :
    pair patterns subjects positions candidates taken =
      .ok ⟨(positions.take candidates.length).reverse ++ taken.patterns,
        (candidates.take positions.length).reverse ++ taken.subjects⟩ := by
  induction positions generalizing candidates taken with
  | nil => simp [pair]
  | cons p ps ih =>
      rcases h p List.mem_cons_self with ⟨pattern, hget, hall⟩
      unfold pair
      simp only [hget]
      cases candidates with
      | nil =>
          have hstructured := hrest p (by simp) pattern hget
          rw [List.dropWhile_nil]
          simp only [hstructured, if_true]
          rw [ih (h.tail (List.Subset.refl _)) fun q hq =>
            hrest q (by simp at hq ⊢; exact Or.inr hq)]
          simp
      | cons s rest =>
          rcases hall s List.mem_cons_self with ⟨subject, hsubject, hequal⟩
          have hdrop : (s :: rest).dropWhile (fun s => !(subjects[s]?.any (· == pattern))) =
              s :: rest := by
            rw [List.dropWhile_cons_of_neg]
            simp [hsubject, hequal]
          rw [hdrop]
          simp only
          rw [ih (h.tail (List.subset_cons_self s rest)) fun q hq => hrest q (by simpa using hq)]
          simp

theorem pair_error {patterns subjects : List Atom} {positions candidates : List Nat}
    {taken : Taken} (h : Pairable patterns subjects positions candidates)
    (hrest : ∃ p ∈ positions.drop candidates.length, ∃ pattern, patterns[p]? = some pattern ∧
      pattern.isStructured = false) :
    ∃ q, pair patterns subjects positions candidates taken = .error q := by
  induction positions generalizing candidates taken with
  | nil =>
      rcases hrest with ⟨p, hp, -⟩
      simp at hp
  | cons p ps ih =>
      rcases h p List.mem_cons_self with ⟨pattern, hget, hall⟩
      unfold pair
      simp only [hget]
      cases candidates with
      | nil =>
          rw [List.dropWhile_nil]
          by_cases hstructured : pattern.isStructured = true
          · simp only [hstructured, if_true]
            apply ih (h.tail (List.Subset.refl _))
            rcases hrest with ⟨q, hq, other, hother, hno⟩
            rw [List.length_nil, List.drop_zero, List.mem_cons] at hq
            rcases hq with rfl | hq
            · rw [hget, Option.some_inj] at hother
              subst hother
              rw [hstructured] at hno
              cases hno
            · exact ⟨q, by simpa using hq, other, hother, hno⟩
          · simp only [hstructured]
            exact ⟨p, rfl⟩
      | cons s rest =>
          rcases hall s List.mem_cons_self with ⟨subject, hsubject, hequal⟩
          have hdrop : (s :: rest).dropWhile (fun s => !(subjects[s]?.any (· == pattern))) =
              s :: rest := by
            rw [List.dropWhile_cons_of_neg]
            simp [hsubject, hequal]
          rw [hdrop]
          exact ih (h.tail (List.subset_cons_self s rest)) (by simpa using hrest)

def candidates (pool : Pool) (digest : Digest) : List Nat := (pool.lookup digest).getD []

theorem pairAll_ok {patterns subjects : List Atom} {pool entries : Pool} {taken : Taken}
    (h : ∀ entry ∈ entries, Pairable patterns subjects entry.2 (candidates pool entry.1))
    (hrest : ∀ entry ∈ entries, ∀ p ∈ entry.2.drop (candidates pool entry.1).length,
      ∀ pattern, patterns[p]? = some pattern → pattern.isStructured = true) :
    ∃ final, pairAll patterns subjects pool entries taken = .ok final ∧
      (∀ i, i ∈ final.patterns ↔ i ∈ taken.patterns ∨
        ∃ entry ∈ entries, i ∈ entry.2.take (candidates pool entry.1).length) ∧
      ∀ j, j ∈ final.subjects ↔ j ∈ taken.subjects ∨
        ∃ entry ∈ entries, j ∈ (candidates pool entry.1).take entry.2.length := by
  induction entries generalizing taken with
  | nil => exact ⟨taken, rfl, by simp, by simp⟩
  | cons entry rest ih =>
      have hpair := @pair_ok _ _ _ _ taken (h entry List.mem_cons_self)
        (hrest entry List.mem_cons_self)
      unfold pairAll
      rw [← candidates, hpair]
      simp only
      rcases ih (fun e he => h e (List.mem_cons_of_mem _ he))
        (fun e he => hrest e (List.mem_cons_of_mem _ he)) with ⟨final, hfinal, hp, hs⟩
      refine ⟨final, hfinal, ?_, ?_⟩
      · intro i
        rw [hp i]
        simp only [List.mem_append, List.mem_reverse, List.exists_mem_cons_iff]
        tauto
      · intro j
        rw [hs j]
        simp only [List.mem_append, List.mem_reverse, List.exists_mem_cons_iff]
        tauto

theorem pairAll_error {patterns subjects : List Atom} {pool entries : Pool} {taken : Taken}
    (h : ∀ entry ∈ entries, Pairable patterns subjects entry.2 (candidates pool entry.1))
    (hrest : ∃ entry ∈ entries, ∃ p ∈ entry.2.drop (candidates pool entry.1).length,
      ∃ pattern, patterns[p]? = some pattern ∧ pattern.isStructured = false) :
    ∃ q, pairAll patterns subjects pool entries taken = .error q := by
  induction entries generalizing taken with
  | nil =>
      rcases hrest with ⟨entry, hentry, -⟩
      cases hentry
  | cons entry rest ih =>
      unfold pairAll
      rw [← candidates]
      cases hpair : pair patterns subjects entry.2 (candidates pool entry.1) taken with
      | error p => exact ⟨p, rfl⟩
      | ok next =>
          simp only
          apply ih fun e he => h e (List.mem_cons_of_mem _ he)
          rcases hrest with ⟨other, hother, hbad⟩
          rcases List.mem_cons.mp hother with rfl | hother
          · rcases @pair_error _ _ _ _ taken (h other List.mem_cons_self) hbad with ⟨q, hq⟩
            rw [hq] at hpair
            cases hpair
          · exact ⟨other, hother, hbad⟩

/-!
## The view from the lists

Which elements are paired can be told from the two lists alone: a constant is paired if fewer of
its equals stand before it than there are on the other side.
-/

section

variable {α : Type}

def pick : List Bool → List α → List α
  | true :: flags, a :: rest => a :: pick flags rest
  | false :: flags, _ :: rest => pick flags rest
  | _, _ => []

def skip : List Bool → List α → List α
  | true :: flags, _ :: rest => skip flags rest
  | false :: flags, a :: rest => a :: skip flags rest
  | _, _ => []

theorem remaining_eq_skip {taken : List Nat} {list : List α} {flags : List Bool}
    (hlength : flags.length = list.length)
    (hflags : ∀ j, j < list.length → flags[j]? = some (taken.contains j)) :
    remaining taken list = skip flags list := by
  have h : ∀ (position : Nat) (flags : List Bool) (list : List α),
      flags.length = list.length →
      (∀ j, j < list.length → flags[j]? = some (taken.contains (position + j))) →
      ((list.zipIdx position).filter fun entry => !taken.contains entry.2).map (·.1) =
        skip flags list := by
    intro position flags list
    induction list generalizing position flags with
    | nil =>
        intro hlength _
        rw [List.length_eq_zero_iff.mp hlength]
        rfl
    | cons a rest ih =>
        intro hlength hflags
        cases flags with
        | nil => cases hlength
        | cons flag flags =>
            have hfirst := hflags 0 (by simp)
            rw [List.getElem?_cons_zero, Option.some_inj, Nat.add_zero] at hfirst
            have htail := ih (position + 1) flags (by simpa using hlength) (by
              intro j hj
              have := hflags (j + 1) (by simpa using hj)
              rw [List.getElem?_cons_succ] at this
              rw [this, Nat.add_assoc, Nat.add_comm 1 j])
            rw [List.zipIdx_cons, List.filter_cons, ← hfirst]
            cases flag with
            | true => simpa [skip] using htail
            | false => simpa [skip] using htail
  exact h 0 flags list hlength (by simpa using hflags)

end

/-- Which elements of a list are paired with elements of another, where some elements stand
before the list. -/
def pairedFrom (other : List Atom) : List Atom → List Atom → List Bool
  | _, [] => []
  | before, atom :: rest =>
    (atom.isConstant && decide (before.countP (isConstantOf atom.fingerprint) <
        other.countP (isConstantOf atom.fingerprint)))
      :: pairedFrom other (before ++ [atom]) rest

/-- Which elements of a list are paired with elements of another: the constants that have fewer
equals before them than there are on the other side. -/
def paired (other list : List Atom) : List Bool := pairedFrom other [] list

@[simp] theorem length_pairedFrom (other before list : List Atom) :
    (pairedFrom other before list).length = list.length := by
  induction list generalizing before with
  | nil => rfl
  | cons atom rest ih => simp [pairedFrom, ih]

@[simp] theorem length_paired (other list : List Atom) :
    (paired other list).length = list.length :=
  length_pairedFrom other [] list

theorem getElem?_pairedFrom (other before list : List Atom) (j : Nat) :
    (pairedFrom other before list)[j]? = list[j]?.map fun atom =>
      atom.isConstant &&
        decide ((before ++ list.take j).countP (isConstantOf atom.fingerprint) <
          other.countP (isConstantOf atom.fingerprint)) := by
  induction list generalizing before j with
  | nil => simp [pairedFrom]
  | cons atom rest ih =>
      cases j with
      | zero => simp [pairedFrom]
      | succ j =>
          rw [pairedFrom, List.getElem?_cons_succ, ih]
          simp [List.append_assoc]

theorem getElem?_paired (other list : List Atom) (j : Nat) :
    (paired other list)[j]? = list[j]?.map fun atom =>
      atom.isConstant && decide ((list.take j).countP (isConstantOf atom.fingerprint) <
        other.countP (isConstantOf atom.fingerprint)) := by
  rw [paired, getElem?_pairedFrom]
  rfl

/-!
## What is left

What the pools pair is what the flags say, seen from either side.  Of every constant, as many are
taken away as there are on the side with fewer; one without parts that finds no equal ends the
match.
-/

theorem mem_constantsAt {digest : Digest} {i : Nat} {list : List Atom} :
    i ∈ constantsAt digest 0 list ↔
      ∃ atom, list[i]? = some atom ∧ isConstantOf digest atom = true := by
  have h := @mem_take_constantsAt digest 0 ((constantsAt digest 0 list).length + 1) i list
  rw [List.take_of_length_le (by omega)] at h
  rw [h]
  constructor
  · rintro ⟨j, atom, rfl, hget, hatom, -⟩
    exact ⟨atom, by simpa using hget, hatom⟩
  · rintro ⟨atom, hget, hatom⟩
    refine ⟨i, atom, by simp, hget, hatom, ?_⟩
    rw [length_constantsAt]
    exact Nat.lt_succ_of_le ((List.take_sublist i list).countP_le)

theorem isConstantOf_iff {digest : Digest} {atom : Atom} :
    isConstantOf digest atom = true ↔ atom.isConstant = true ∧ atom.fingerprint = digest := by
  simp [isConstantOf]

theorem isConstantOf_eq_beq {f : Option String → Option String} {atom constant : Atom}
    (h : atom.fingerprint = constant.fingerprint → Atom.Like f atom constant)
    (hconstant : constant.isConstant = true) :
    isConstantOf constant.fingerprint atom = (atom == constant) := by
  rw [Bool.eq_iff_iff, isConstantOf_iff]
  constructor
  · rintro ⟨-, hfingerprint⟩
    exact (h hfingerprint).beq
  · intro hbeq
    have hfingerprint := ((Atom.beq_iff _ _).mp hbeq).2
    exact ⟨(h hfingerprint).isConstant.trans hconstant, hfingerprint⟩

theorem Faithful.pairable {patterns subjects : List Atom} (h : Faithful patterns subjects) :
    ∀ entry ∈ constantPool patterns,
      Pairable patterns subjects entry.2 (candidates (constantPool subjects) entry.1) := by
  rintro ⟨digest, positions⟩ hentry
  rw [eq_constantsAt_of_mem hentry, candidates, lookup_constantPool]
  intro p hp
  rcases mem_constantsAt.mp hp with ⟨pattern, hpattern, hconstant⟩
  refine ⟨pattern, hpattern, ?_⟩
  intro s hs
  rcases mem_constantsAt.mp hs with ⟨subject, hsubject, hother⟩
  rw [isConstantOf_iff] at hconstant hother
  exact ⟨subject, hsubject, h pattern (List.mem_of_getElem? hpattern) subject
    (List.mem_of_getElem? hsubject) hconstant.1 hother.1 (hconstant.2.trans hother.2.symm)⟩

theorem mem_take_iff_paired {other list : List Atom} {i : Nat} :
    (∃ entry ∈ constantPool list,
        i ∈ entry.2.take (candidates (constantPool other) entry.1).length) ↔
      (paired other list)[i]? = some true := by
  rw [getElem?_paired]
  constructor
  · rintro ⟨⟨digest, positions⟩, hentry, hi⟩
    rw [eq_constantsAt_of_mem hentry, candidates, lookup_constantPool, length_constantsAt,
      mem_take_constantsAt] at hi
    rcases hi with ⟨j, atom, rfl, hget, hatom, hcount⟩
    rw [Nat.zero_add, hget, Option.map_some]
    rw [isConstantOf_iff] at hatom
    rw [← hatom.2] at hcount
    simp [hatom.1, hcount]
  · intro hflag
    rw [Option.map_eq_some_iff] at hflag
    rcases hflag with ⟨atom, hget, hflag⟩
    rw [Bool.and_eq_true, decide_eq_true_iff] at hflag
    have hatom : isConstantOf atom.fingerprint atom = true := isConstantOf_iff.mpr ⟨hflag.1, rfl⟩
    have hmem : i ∈ constantsAt atom.fingerprint 0 list := mem_constantsAt.mpr ⟨atom, hget, hatom⟩
    refine ⟨_, exists_mem_constantPool (List.ne_nil_of_mem hmem), ?_⟩
    rw [candidates, lookup_constantPool, length_constantsAt, mem_take_constantsAt]
    exact ⟨i, atom, by simp, hget, hatom, hflag.2⟩

theorem mem_take_candidates_iff_paired {patterns subjects : List Atom} {j : Nat} :
    (∃ entry ∈ constantPool patterns,
        j ∈ (candidates (constantPool subjects) entry.1).take entry.2.length) ↔
      (paired patterns subjects)[j]? = some true := by
  rw [← mem_take_iff_paired]
  constructor
  · rintro ⟨⟨digest, positions⟩, hentry, hj⟩
    rw [eq_constantsAt_of_mem hentry, candidates, lookup_constantPool] at hj
    have hne : constantsAt digest 0 subjects ≠ [] := by
      intro hnil
      rw [hnil] at hj
      simp at hj
    refine ⟨_, exists_mem_constantPool hne, ?_⟩
    rwa [candidates, lookup_constantPool]
  · rintro ⟨⟨digest, positions⟩, hentry, hj⟩
    rw [eq_constantsAt_of_mem hentry, candidates, lookup_constantPool] at hj
    have hne : constantsAt digest 0 patterns ≠ [] := by
      intro hnil
      rw [hnil] at hj
      simp at hj
    refine ⟨_, exists_mem_constantPool hne, ?_⟩
    rwa [candidates, lookup_constantPool]

theorem sorted_constantsAt (digest : Digest) (position : Nat) (list : List Atom) :
    (constantsAt digest position list).Pairwise (· < ·) ∧
      ∀ i ∈ constantsAt digest position list, position ≤ i := by
  induction list generalizing position with
  | nil => exact ⟨List.Pairwise.nil, by simp [constantsAt]⟩
  | cons atom rest ih =>
      have htail := ih (position + 1)
      unfold constantsAt
      split
      · refine ⟨List.pairwise_cons.mpr ⟨fun i hi => htail.2 i hi, htail.1⟩, ?_⟩
        intro i hi
        rcases List.mem_cons.mp hi with rfl | hi
        · exact Nat.le_refl _
        · exact Nat.le_of_succ_le (htail.2 i hi)
      · exact ⟨htail.1, fun i hi => Nat.le_of_succ_le (htail.2 i hi)⟩

theorem mem_drop_iff_not_paired {other list : List Atom} {i : Nat} :
    (∃ entry ∈ constantPool list,
        i ∈ entry.2.drop (candidates (constantPool other) entry.1).length) ↔
      (paired other list)[i]? = some false ∧
        ∃ atom, list[i]? = some atom ∧ atom.isConstant = true := by
  constructor
  · rintro ⟨⟨digest, positions⟩, hentry, hi⟩
    have hpositions := eq_constantsAt_of_mem hentry
    have hmem : i ∈ constantsAt digest 0 list := hpositions ▸ List.mem_of_mem_drop hi
    rcases mem_constantsAt.mp hmem with ⟨atom, hget, hatom⟩
    rw [isConstantOf_iff] at hatom
    refine ⟨?_, atom, hget, hatom.1⟩
    have hnot : ¬(paired other list)[i]? = some true := by
      rw [← mem_take_iff_paired]
      rintro ⟨⟨found, others⟩, hfound, hi'⟩
      have hothers := eq_constantsAt_of_mem hfound
      have hmem' : i ∈ constantsAt found 0 list := hothers ▸ List.mem_of_mem_take hi'
      rcases mem_constantsAt.mp hmem' with ⟨atom', hget', hatom'⟩
      rw [hget, Option.some_inj] at hget'
      rw [isConstantOf_iff] at hatom'
      have hdigest : found = digest := by rw [← hatom'.2, ← hatom.2, hget']
      subst hdigest
      simp only [hpositions, hothers] at hi hi'
      have hnodup : (constantsAt found 0 list).Nodup :=
        (sorted_constantsAt found 0 list).1.imp fun hlt => Nat.ne_of_lt hlt
      exact List.disjoint_take_drop hnodup (Nat.le_refl _) hi' hi
    rw [getElem?_paired, hget] at hnot ⊢
    simpa using hnot
  · rintro ⟨hflag, atom, hget, hconstant⟩
    have hatom : isConstantOf atom.fingerprint atom = true := isConstantOf_iff.mpr ⟨hconstant, rfl⟩
    have hmem : i ∈ constantsAt atom.fingerprint 0 list := mem_constantsAt.mpr ⟨atom, hget, hatom⟩
    refine ⟨_, exists_mem_constantPool (List.ne_nil_of_mem hmem), ?_⟩
    simp only
    rw [← List.take_append_drop (candidates (constantPool other) atom.fingerprint).length
      (constantsAt atom.fingerprint 0 list), List.mem_append] at hmem
    rcases hmem with htake | hdrop
    · have hpaired := mem_take_iff_paired.mp
        ⟨_, exists_mem_constantPool (List.ne_nil_of_mem (List.mem_of_mem_take htake)), htake⟩
      rw [hpaired] at hflag
      cases hflag
    · exact hdrop

section

variable {α β : Type}

theorem mem_pick_iff {flags : List Bool} {list : List α} {a : α} :
    a ∈ pick flags list ↔ ∃ i : Nat, flags[i]? = some true ∧ list[i]? = some a := by
  induction flags generalizing list with
  | nil => simp [pick]
  | cons flag flags ih =>
      cases list with
      | nil => cases flag <;> simp [pick]
      | cons b rest =>
          have hsplit : (∃ i : Nat, (flag :: flags)[i]? = some true ∧ (b :: rest)[i]? = some a) ↔
              (flag = true ∧ b = a) ∨ ∃ i : Nat, flags[i]? = some true ∧ rest[i]? = some a := by
            constructor
            · rintro ⟨i, hflag, hget⟩
              cases i with
              | zero => exact Or.inl ⟨by simpa using hflag, by simpa using hget⟩
              | succ i => exact Or.inr ⟨i, by simpa using hflag, by simpa using hget⟩
            · rintro (⟨rfl, rfl⟩ | ⟨i, hflag, hget⟩)
              · exact ⟨0, rfl, rfl⟩
              · exact ⟨i + 1, by simpa using hflag, by simpa using hget⟩
          rw [hsplit, ← ih]
          cases flag with
          | true => simp [pick, eq_comm]
          | false => simp [pick]

theorem mem_of_mem_pick {flags : List Bool} {list : List α} {a : α} (h : a ∈ pick flags list) :
    a ∈ list := by
  rcases mem_pick_iff.mp h with ⟨i, -, hget⟩
  exact List.mem_of_getElem? hget

@[simp] theorem pick_map (f : α → β) (flags : List Bool) (list : List α) :
    pick flags (list.map f) = (pick flags list).map f := by
  induction flags generalizing list with
  | nil => simp [pick]
  | cons flag flags ih =>
      cases list with
      | nil => cases flag <;> simp [pick]
      | cons a rest => cases flag <;> simp [pick, ih]

theorem skip_eq_pick (flags : List Bool) (list : List α) :
    skip flags list = pick (flags.map (!·)) list := by
  induction flags generalizing list with
  | nil => rfl
  | cons flag flags ih =>
      cases list with
      | nil => cases flag <;> rfl
      | cons a rest => cases flag <;> simp [skip, pick, ih]

theorem mem_skip_iff {flags : List Bool} {list : List α} {a : α} :
    a ∈ skip flags list ↔ ∃ i : Nat, flags[i]? = some false ∧ list[i]? = some a := by
  simp [skip_eq_pick, mem_pick_iff]

theorem mem_of_mem_skip {flags : List Bool} {list : List α} {a : α} (h : a ∈ skip flags list) :
    a ∈ list := by
  rw [skip_eq_pick] at h
  exact mem_of_mem_pick h

@[simp] theorem skip_map (f : α → β) (flags : List Bool) (list : List α) :
    skip flags (list.map f) = (skip flags list).map f := by
  rw [skip_eq_pick, pick_map, ← skip_eq_pick]

theorem pick_append_skip_perm {flags : List Bool} {list : List α}
    (hlength : flags.length = list.length) : (pick flags list ++ skip flags list).Perm list := by
  induction flags generalizing list with
  | nil =>
      rw [List.length_eq_zero_iff.mp hlength.symm]
      exact List.Perm.nil
  | cons flag flags ih =>
      cases list with
      | nil => cases hlength
      | cons a rest =>
          have htail := @ih rest (by simpa using hlength)
          cases flag with
          | true => exact htail.cons a
          | false => exact List.perm_middle.trans (htail.cons a)

theorem pick_map_self (f : α → Bool) (list : List α) : pick (list.map f) list = list.filter f := by
  induction list with
  | nil => rfl
  | cons a rest ih =>
      rw [List.map_cons, List.filter_cons]
      cases f a with
      | true => simp [pick, ih]
      | false => simp [pick, ih]

theorem skip_map_self (f : α → Bool) (list : List α) :
    skip (list.map f) list = list.filter (!f ·) := by
  induction list with
  | nil => rfl
  | cons a rest ih =>
      rw [List.map_cons, List.filter_cons]
      cases f a with
      | true => simp [skip, ih]
      | false => simp [skip, ih]

theorem forall₂_pick {R : α → β → Prop} {list : List α} {other : List β}
    (h : List.Forall₂ R list other) (flags : List Bool) :
    List.Forall₂ R (pick flags list) (pick flags other) := by
  induction h generalizing flags with
  | nil =>
      cases flags with
      | nil => exact List.Forall₂.nil
      | cons flag flags => cases flag <;> exact List.Forall₂.nil
  | cons hfirst _ ih =>
      cases flags with
      | nil => exact List.Forall₂.nil
      | cons flag flags =>
          cases flag with
          | true => exact List.Forall₂.cons hfirst (ih flags)
          | false => exact ih flags

theorem forall₂_skip {R : α → β → Prop} {list : List α} {other : List β}
    (h : List.Forall₂ R list other) (flags : List Bool) :
    List.Forall₂ R (skip flags list) (skip flags other) := by
  rw [skip_eq_pick, skip_eq_pick]
  exact forall₂_pick h _

end

theorem paired_eq_map_isConstant {other list : List Atom}
    (h : ∀ digest, list.countP (isConstantOf digest) ≤ other.countP (isConstantOf digest)) :
    paired other list = list.map Atom.isConstant := by
  apply List.ext_getElem?
  intro j
  rw [getElem?_paired, List.getElem?_map]
  cases hget : list[j]? with
  | none => rfl
  | some atom =>
      rw [Option.map_some, Option.map_some, Option.some_inj]
      cases hconstant : atom.isConstant with
      | false => rfl
      | true =>
          have hatom : isConstantOf atom.fingerprint atom = true :=
            isConstantOf_iff.mpr ⟨hconstant, rfl⟩
          have hmem : atom ∈ list.drop j := by
            rw [List.mem_iff_getElem?]
            exact ⟨0, by rwa [List.getElem?_drop, Nat.add_zero]⟩
          have hpositive := List.countP_pos_iff.mpr ⟨atom, hmem, hatom⟩
          have hcount := h atom.fingerprint
          rw [← List.take_append_drop j list, List.countP_append] at hcount
          rw [Bool.true_and, decide_eq_true_iff]
          omega

theorem count_pairedFrom (digest : Digest) (other before list : List Atom) :
    min (before.countP (isConstantOf digest)) (other.countP (isConstantOf digest)) +
        ((pick (pairedFrom other before list) list).map Atom.fingerprint).count digest =
      min ((before ++ list).countP (isConstantOf digest))
        (other.countP (isConstantOf digest)) := by
  induction list generalizing before with
  | nil => simp [pick]
  | cons atom rest ih =>
      have htail := ih (before ++ [atom])
      rw [List.append_assoc, List.singleton_append] at htail
      rw [← htail, List.countP_append, List.countP_singleton, pairedFrom]
      by_cases hconstant : atom.isConstant = true
      · by_cases hdigest : atom.fingerprint = digest
        · have hatom : isConstantOf digest atom = true := isConstantOf_iff.mpr ⟨hconstant, hdigest⟩
          rw [if_pos hatom, hconstant, hdigest, Bool.true_and]
          by_cases hcount : before.countP (isConstantOf digest) <
              other.countP (isConstantOf digest)
          · rw [decide_eq_true hcount]
            simp only [pick, List.map_cons, hdigest, List.count_cons_self]
            omega
          · rw [decide_eq_false hcount]
            simp only [pick]
            omega
        · have hatom : ¬isConstantOf digest atom = true := fun h =>
            hdigest (isConstantOf_iff.mp h).2
          rw [if_neg hatom, Nat.add_zero]
          congr 1
          cases atom.isConstant && decide (before.countP (isConstantOf atom.fingerprint) <
              other.countP (isConstantOf atom.fingerprint)) with
          | true => simp [pick, hdigest]
          | false => simp [pick]
      · have hatom : ¬isConstantOf digest atom = true := fun h =>
          hconstant (isConstantOf_iff.mp h).1
        rw [if_neg hatom, Nat.add_zero]
        simp [hconstant, pick]

theorem isConstant_of_mem_pick {other list : List Atom} {atom : Atom}
    (h : atom ∈ pick (paired other list) list) : atom.isConstant = true := by
  rcases mem_pick_iff.mp h with ⟨i, hflag, hget⟩
  rw [getElem?_paired, hget, Option.map_some, Option.some_inj, Bool.and_eq_true] at hflag
  exact hflag.1

/-- The subjects that are taken away are, in some order, the equals of the patterns that are. -/
theorem exists_chosen {patterns subjects : List Atom} (h : Faithful patterns subjects) :
    ∃ chosen, chosen.Perm (pick (paired patterns subjects) subjects) ∧
      List.Forall₂ (fun s p => p.isConstant = true ∧ (s == p) = true) chosen
        (pick (paired subjects patterns) patterns) := by
  have hperm : ((pick (paired subjects patterns) patterns).map Atom.fingerprint).Perm
      ((pick (paired patterns subjects) subjects).map Atom.fingerprint) := by
    rw [List.perm_iff_count]
    intro digest
    have hpatterns := count_pairedFrom digest subjects [] patterns
    have hsubjects := count_pairedFrom digest patterns [] subjects
    simp only [List.countP_nil, Nat.zero_min, Nat.zero_add, List.nil_append] at hpatterns hsubjects
    rw [paired, paired, hpatterns, hsubjects, Nat.min_comm]
  have hsame : List.Forall₂ (fun digest s => s.fingerprint = digest)
      ((pick (paired patterns subjects) subjects).map Atom.fingerprint)
      (pick (paired patterns subjects) subjects) := by
    rw [List.forall₂_map_left_iff]
    exact List.forall₂_same.mpr fun s _ => rfl
  rcases List.perm_comp_forall₂ hperm hsame with ⟨chosen, hchosen, horder⟩
  refine ⟨chosen, horder, ?_⟩
  rw [List.forall₂_map_left_iff, List.forall₂_iff_zip] at hchosen
  apply List.Forall₂.flip
  rw [List.forall₂_iff_zip]
  refine ⟨hchosen.1, ?_⟩
  intro p s hmem
  have hp := (List.of_mem_zip hmem).1
  have hs := horder.subset (List.of_mem_zip hmem).2
  exact ⟨isConstant_of_mem_pick hp, h p (mem_of_mem_pick hp) s (mem_of_mem_pick hs)
    (isConstant_of_mem_pick hp) (isConstant_of_mem_pick hs) (hchosen.2 hmem).symm⟩

end Elimination

theorem faithful_of_noCollision {among : Atom → Prop} (h : Atom.NoCollision among)
    {patterns subjects : List Atom} (hpatterns : ∀ atom ∈ patterns, among atom)
    (hsubjects : ∀ atom ∈ subjects, among atom) : Elimination.Faithful patterns subjects := by
  intro p hp s hs _ _ hfingerprint
  exact (h s p (hsubjects s hs) (hpatterns p hp) hfingerprint.symm).beq

namespace Sequence

open Elimination

theorem eliminateConstants_ok {patterns : List Element} {subjects : Sequence Atom}
    (h : Faithful (patterns.map (·.pattern)) subjects.elements)
    (hrest : ∀ pattern ∈ skip (paired subjects.elements (patterns.map (·.pattern)))
      (patterns.map (·.pattern)), pattern.isConstant = true → pattern.isStructured = true) :
    (eliminateConstants patterns subjects).value =
      .ok (skip (paired subjects.elements (patterns.map (·.pattern))) patterns,
        skip (paired (patterns.map (·.pattern)) subjects.elements) subjects.elements) := by
  have hleft : ∀ entry ∈ constantPool (patterns.map (·.pattern)),
      ∀ p ∈ entry.2.drop (candidates (constantPool subjects.elements) entry.1).length,
      ∀ pattern, (patterns.map (·.pattern))[p]? = some pattern → pattern.isStructured = true := by
    intro entry hentry p hp pattern hget
    rcases mem_drop_iff_not_paired.mp ⟨entry, hentry, hp⟩ with ⟨hflag, atom, hatom, hconstant⟩
    rw [hget, Option.some_inj] at hatom
    exact hrest pattern (mem_skip_iff.mpr ⟨p, hflag, hget⟩) (hatom ▸ hconstant)
  rcases @pairAll_ok _ _ _ _ ⟨[], []⟩ h.pairable hleft with ⟨final, hfinal, hpatterns, hsubjects⟩
  simp only [List.not_mem_nil, false_or] at hpatterns hsubjects
  unfold eliminateConstants
  simp only [hfinal, Traced.of]
  rw [@remaining_eq_skip _ _ _ (paired subjects.elements (patterns.map (·.pattern))),
    @remaining_eq_skip _ _ _ (paired (patterns.map (·.pattern)) subjects.elements)]
  · simp
  · intro j hj
    have hj' : j < (paired (patterns.map (·.pattern)) subjects.elements).length := by simpa using hj
    rw [List.getElem?_eq_getElem hj', Option.some_inj, Bool.eq_iff_iff, List.contains_iff_mem,
      hsubjects, mem_take_candidates_iff_paired, List.getElem?_eq_getElem hj', Option.some_inj]
  · simp
  · intro j hj
    have hj' : j < (paired subjects.elements (patterns.map (·.pattern))).length := by simpa using hj
    rw [List.getElem?_eq_getElem hj', Option.some_inj, Bool.eq_iff_iff, List.contains_iff_mem,
      hpatterns, mem_take_iff_paired, List.getElem?_eq_getElem hj', Option.some_inj]

theorem eliminateConstants_error {patterns : List Element} {subjects : Sequence Atom}
    (h : Faithful (patterns.map (·.pattern)) subjects.elements)
    (hrest : ∃ pattern ∈ skip (paired subjects.elements (patterns.map (·.pattern)))
      (patterns.map (·.pattern)), pattern.isConstant = true ∧ pattern.isStructured = false) :
    ∃ failure, (eliminateConstants patterns subjects).value = .error failure := by
  rcases hrest with ⟨pattern, hmem, hconstant, hno⟩
  rcases mem_skip_iff.mp hmem with ⟨p, hflag, hget⟩
  rcases mem_drop_iff_not_paired.mpr ⟨hflag, pattern, hget, hconstant⟩ with ⟨entry, hentry, hp⟩
  rcases @pairAll_error _ _ _ _ ⟨[], []⟩ h.pairable
    ⟨entry, hentry, p, hp, pattern, hget, hno⟩ with ⟨q, hq⟩
  unfold eliminateConstants
  simp only [hq]
  split
  · exact ⟨_, rfl⟩
  · exact ⟨_, rfl⟩

end Sequence

end Equational
