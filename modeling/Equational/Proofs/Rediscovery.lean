import Equational.Proofs.BareMatching
import Equational.Proofs.Instances
import Equational.Proofs.PlainMatching

/-!
# A match finds what an instance was made with

If the variables of a term are bound to constants and rewriting gives an
instance, then matching the term with the instance finds these bindings again.
The cut points that flattening has wiped out are among the arrangements that
are searched, and elimination takes nothing away but the constants that the
term itself has brought in.
-/

namespace Equational

open Atom Matcher

/-!
## Parts of a binding set

The names of a binding set stand in ascending order, so binding sets that bind the same names to
the same terms are equal.
-/

namespace NameMap

def Ascending (binds : Bindings) : Prop :=
  binds.entries.Pairwise fun entry other => entry.1 < other.1

theorem ascending_empty : Ascending .empty := List.Pairwise.nil

theorem mem_insertEntry {name : String} {atom : Atom} {entries : List (String × Atom)}
    {entry : String × Atom} (h : entry ∈ insertEntry name atom entries) :
    entry.1 = name ∨ entry ∈ entries := by
  induction entries with
  | nil =>
      rw [insertEntry, List.mem_singleton] at h
      exact Or.inl (by rw [h])
  | cons first rest ih =>
      unfold insertEntry at h
      split at h
      · rcases List.mem_cons.mp h with rfl | h
        · exact Or.inl rfl
        · exact Or.inr h
      · split at h
        · rcases List.mem_cons.mp h with rfl | h
          · exact Or.inl rfl
          · exact Or.inr (List.mem_cons_of_mem _ h)
        · rcases List.mem_cons.mp h with rfl | h
          · exact Or.inr List.mem_cons_self
          · rcases ih h with heq | hmem
            · exact Or.inl heq
            · exact Or.inr (List.mem_cons_of_mem _ hmem)

theorem Ascending.insert {binds : Bindings} (h : binds.Ascending) (name : String) (atom : Atom) :
    (binds.insert name atom).Ascending := by
  rcases binds with ⟨entries⟩
  unfold Ascending NameMap.insert at *
  simp only at *
  induction entries with
  | nil => exact List.pairwise_singleton _ _
  | cons first rest ih =>
      have hfirst := List.pairwise_cons.mp h
      unfold insertEntry
      split
      · rename_i hlt
        refine List.pairwise_cons.mpr ⟨?_, h⟩
        intro entry hentry
        rcases List.mem_cons.mp hentry with rfl | hentry
        · exact hlt
        · exact String.lt_trans hlt (hfirst.1 entry hentry)
      · rename_i hle
        split
        · rename_i heq
          exact List.pairwise_cons.mpr ⟨fun entry hentry => heq ▸ hfirst.1 entry hentry, hfirst.2⟩
        · rename_i hne
          refine List.pairwise_cons.mpr ⟨?_, ih hfirst.2⟩
          intro entry hentry
          rcases mem_insertEntry hentry with heq | hmem
          · rw [heq]
            exact String.not_le.mp fun hge => hne (String.le_antisymm hge (String.not_lt.mp hle))
          · exact hfirst.1 entry hmem

theorem lookup_eq_none_of_lt {name : String} {entries : List (String × Atom)}
    (h : ∀ entry ∈ entries, name < entry.1) : entries.lookup name = none := by
  rw [List.lookup_eq_none_iff]
  intro entry hentry
  simpa using String.ne_of_lt (h entry hentry)

theorem lookup_eq_none_of_lt_first {name : String} {first : String × Atom}
    {rest : List (String × Atom)}
    (h : (first :: rest).Pairwise fun entry other => entry.1 < other.1) (hname : name < first.1) :
    (first :: rest).lookup name = none := by
  refine lookup_eq_none_of_lt fun entry hentry => ?_
  rcases List.mem_cons.mp hentry with rfl | hentry
  · exact hname
  · exact String.lt_trans hname ((List.pairwise_cons.mp h).1 entry hentry)

theorem entries_eq_of_lookup {f : Option String → Option String}
    {entries others : List (String × Atom)}
    (hentries : entries.Pairwise fun entry other => entry.1 < other.1)
    (hothers : others.Pairwise fun entry other => entry.1 < other.1)
    (h : ∀ name, (entries.lookup name).map (Atom.bare f) = (others.lookup name).map (Atom.bare f)) :
    entries.map (fun entry => (entry.1, entry.2.bare f)) =
      others.map fun entry => (entry.1, entry.2.bare f) := by
  induction entries generalizing others with
  | nil =>
      cases others with
      | nil => rfl
      | cons other others =>
          have hnone := h other.1
          rw [List.lookup_cons, beq_self_eq_true] at hnone
          cases hnone
  | cons entry rest ih =>
      cases others with
      | nil =>
          have hnone := h entry.1
          rw [List.lookup_cons, beq_self_eq_true] at hnone
          cases hnone
      | cons other others =>
          have hname : entry.1 = other.1 := by
            by_contra hne
            rcases String.le_total entry.1 other.1 with hle | hle
            · have hless := String.not_le.mp fun hge => hne (String.le_antisymm hle hge)
              have hnone := h entry.1
              rw [List.lookup_cons, beq_self_eq_true,
                lookup_eq_none_of_lt_first hothers hless] at hnone
              cases hnone
            · have hless := String.not_le.mp fun hge => hne (String.le_antisymm hge hle)
              have hnone := h other.1
              rw [lookup_eq_none_of_lt_first hentries hless, List.lookup_cons,
                beq_self_eq_true] at hnone
              cases hnone
          have hfirst := List.pairwise_cons.mp hentries
          have hfirst' := List.pairwise_cons.mp hothers
          have hvalue : entry.2.bare f = other.2.bare f := by
            have hlookup := h entry.1
            rw [List.lookup_cons, beq_self_eq_true, List.lookup_cons, hname, beq_self_eq_true]
              at hlookup
            exact Option.some_inj.mp hlookup
          have hrest := ih hfirst.2 hfirst'.2 fun name => by
            by_cases heq : name = entry.1
            · rw [heq, lookup_eq_none_of_lt hfirst.1, hname, lookup_eq_none_of_lt hfirst'.1]
            · have hlookup := h name
              have hno : (name == entry.1) = false := by simpa using heq
              have hno' : (name == other.1) = false := by simpa [← hname] using heq
              rwa [List.lookup_cons, hno, List.lookup_cons, hno'] at hlookup
          rw [List.map_cons, List.map_cons, hname, hvalue, hrest]

theorem agree_of_find? {f : Option String → Option String} {binds other : Bindings}
    (hbinds : binds.Ascending) (hother : other.Ascending)
    (h : ∀ name, (binds.find? name).map (Atom.bare f) = (other.find? name).map (Atom.bare f)) :
    Agree f binds other :=
  congrArg NameMap.mk (entries_eq_of_lookup hbinds hother h)

theorem beq_of_find? {binds other : Bindings} (hbinds : binds.Ascending) (hother : other.Ascending)
    (h : ∀ name, (binds.find? name).map term = (other.find? name).map term) :
    (binds == other) = true :=
  (agree_of_find? hbinds hother h).beq

/-- A part of a binding set, up to equal terms. -/
structure Within (start binds : Bindings) : Prop where
  ascending : start.Ascending
  agrees : ∀ name atom, start.find? name = some atom →
    ∃ value, binds.find? name = some value ∧ SameTerm atom value

theorem within_empty (binds : Bindings) : Within .empty binds where
  ascending := ascending_empty
  agrees name atom h := by simp at h

theorem Within.insert {start binds : Bindings} (h : start.Within binds) {name : String}
    {atom value : Atom} (hfind : binds.find? name = some value) (hsame : SameTerm atom value) :
    (start.insert name atom).Within binds where
  ascending := h.ascending.insert name atom
  agrees other found hother := by
    by_cases hname : other = name
    · subst hname
      rw [find?_insert_self, Option.some_inj] at hother
      exact ⟨value, hfind, hother ▸ hsame⟩
    · rw [find?_insert_of_ne start atom hname] at hother
      exact h.agrees other found hother

end NameMap

/-!
## Searches that find a binding set

Whatever part of the bindings a search starts with, it finds a larger part of them.  Elements that
find their parts one by one find them all.
-/

/-- Whatever part of the bindings a search starts with, it finds a larger part, with the given names
bound. -/
def Finds (binds : Bindings) (names : List String) (search : Bindings → Traced Outcome) : Prop :=
  ∀ start, NameMap.Within start binds → ∃ found ∈ (search start).alternatives,
    found.Within binds ∧ start.Extends found ∧ ∀ name ∈ names, (found.find? name).isSome = true

theorem Finds.mono {binds : Bindings} {names others : List String}
    {search larger : Bindings → Traced Outcome} (h : Finds binds others search)
    (hnames : names ⊆ others)
    (hsearch : ∀ start found, found ∈ (search start).alternatives →
      found ∈ (larger start).alternatives) : Finds binds names larger := by
  intro start hstart
  rcases h start hstart with ⟨found, hfound, hwithin, hextends, hbound⟩
  exact ⟨found, hsearch start found hfound, hwithin, hextends, fun name hname =>
    hbound name (hnames hname)⟩

theorem NameMap.Extends.isSome {binds found : Bindings} (h : binds.Extends found) {name : String}
    (hname : (binds.find? name).isSome = true) : (found.find? name).isSome = true := by
  rcases Option.isSome_iff_exists.mp hname with ⟨atom, hatom⟩
  rw [h name atom hatom]
  rfl

theorem Element.finds_matchAll {binds : Bindings} {elements : List Element} {subjects : List Atom}
    (h : List.Forall₂ (fun element subject =>
      Finds binds element.pattern.freeNames (element.matcher subject)) elements subjects) :
    Finds binds ((elements.map (·.pattern)).flatMap freeNames) (matchAll elements subjects) := by
  induction h with
  | nil =>
      intro start hstart
      exact ⟨start, List.mem_singleton.mpr rfl, hstart, NameMap.Extends.refl start,
        List.forall_mem_nil _⟩
  | @cons element subject elements subjects hfirst _ ih =>
      intro start hstart
      rcases hfirst start hstart with ⟨middle, hmiddle, hwithin, hextends, hnames⟩
      rcases ih middle hwithin with ⟨found, hfound, hfoundWithin, hfoundExtends, hfoundNames⟩
      refine ⟨found, ?_, hfoundWithin, hextends.trans hfoundExtends, ?_⟩
      · rw [alternatives_matchAll_cons, List.mem_flatMap]
        exact ⟨middle, hmiddle, hfound⟩
      · intro name hname
        rw [List.map_cons, List.flatMap_cons, List.mem_append] at hname
        rcases hname with hname | hname
        · exact hfoundExtends.isSome (hnames name hname)
        · exact hfoundNames name hname

/-!
## Cutting the subjects

If subjects are what some values contribute, in any order, then there is an arrangement of them
whose runs are what the values contribute.
-/

/-- If subjects are what values contribute, then there is an arrangement with a run for every
value. -/
theorem exists_arrangement_of_parts {op : Operator Atom} {commutative : Bool}
    {subjects values : List Atom} (hparts : ∀ value ∈ values, op.parts value ≠ [])
    (hperm : (subjects.map term).Perm ((values.flatMap op.parts).map term))
    (hordered : commutative = false →
      subjects.map term = (values.flatMap op.parts).map term) :
    ∃ runs, Arrangement op.properties.isAssociative commutative subjects values.length runs ∧
      List.Forall₂ (fun run value => List.Forall₂ SameTerm run (op.parts value)) runs values := by
  have horder : ∃ order : List Atom, order.Perm subjects ∧
      List.Forall₂ SameTerm order (values.flatMap op.parts) ∧
      (commutative = false → order = subjects) := by
    cases commutative with
    | true =>
        rcases exists_order_of_bare hperm with ⟨order, horder, hall⟩
        exact ⟨order, horder, hall, by simp⟩
    | false => exact ⟨subjects, List.Perm.refl _, forall₂_of_map_term (hordered rfl), fun _ => rfl⟩
  rcases horder with ⟨order, hperm, hall, hsame⟩
  rw [List.flatMap_def] at hall
  rcases exists_split hall with ⟨runs, rfl, hruns⟩
  rw [List.forall₂_map_right_iff] at hruns
  refine ⟨runs, ⟨hruns.length_eq, ?_, hperm, hsame, ?_⟩, hruns⟩
  · intro run hrun hnil
    rcases exists_of_mem_forall₂ hruns hrun with ⟨value, hvalue, hall⟩
    rw [hnil] at hall
    cases hvalues : op.parts value with
    | nil => exact hparts value hvalue hvalues
    | cons part rest =>
        rw [hvalues] at hall
        cases hall
  · intro hassociative run hrun
    rcases exists_of_mem_forall₂ hruns hrun with ⟨value, hvalue, hall⟩
    rw [hall.length_eq, Operator.parts, hassociative]
    rfl

/-!
## Constants among the arguments

Constants contribute themselves, so all constants among the patterns are taken away, and what is
left of the subjects is what the other values contribute.
-/

namespace Elimination

open Sequence

theorem countP_term (digest : Digest) (list : List Atom) :
    (list.map term).countP (isConstantOf digest) = list.countP (isConstantOf digest) := by
  rw [List.countP_map]
  apply List.countP_congr
  intro atom _
  simp [isConstantOf, term]

section

variable {op : Operator Atom} {patterns values subjects : List Atom}

theorem countP_le_countP_flatMap
    (hall : List.Forall₂ (fun pattern value => pattern.isConstant = true →
      value = pattern ∧ op.parts value = [value]) patterns values) (digest : Digest) :
    patterns.countP (isConstantOf digest) ≤
      (values.flatMap op.parts).countP (isConstantOf digest) := by
  induction hall with
  | nil => exact Nat.le_refl 0
  | @cons pattern value patterns values hfirst _ ih =>
      rw [List.flatMap_cons, List.countP_append, List.countP_cons]
      split
      · rename_i hpattern
        rcases hfirst (isConstantOf_iff.mp hpattern).1 with ⟨rfl, hparts⟩
        rw [hparts, List.countP_singleton, if_pos hpattern]
        omega
      · omega

theorem paired_eq_of_parts
    (hall : List.Forall₂ (fun pattern value => pattern.isConstant = true →
      value = pattern ∧ op.parts value = [value]) patterns values)
    (hperm : (subjects.map term).Perm ((values.flatMap op.parts).map term)) :
    paired subjects patterns = patterns.map isConstant := by
  refine paired_eq_map_isConstant fun digest => ?_
  rw [← countP_term digest subjects, hperm.countP_eq, countP_term]
  exact countP_le_countP_flatMap hall digest

theorem pick_values
    (hall : List.Forall₂ (fun pattern value => pattern.isConstant = true →
      value = pattern ∧ op.parts value = [value]) patterns values) :
    pick (patterns.map isConstant) values = patterns.filter isConstant ∧
      (patterns.filter isConstant).flatMap op.parts = patterns.filter isConstant := by
  induction hall with
  | nil => exact ⟨rfl, rfl⟩
  | @cons pattern value patterns values hfirst _ ih =>
      rw [List.map_cons, List.filter_cons]
      cases hconstant : pattern.isConstant with
      | false => simpa [pick] using ih
      | true =>
          rcases hfirst hconstant with ⟨rfl, hparts⟩
          simp [pick, ih.1, ih.2, hparts]

theorem perm_subjectsLeft
    (hall : List.Forall₂ (fun pattern value => pattern.isConstant = true →
      value = pattern ∧ op.parts value = [value]) patterns values)
    (hfaithful : Faithful patterns subjects)
    (hterm : ∀ p ∈ patterns, ∀ s ∈ subjects, (s == p) = true → SameTerm s p)
    (hperm : (subjects.map term).Perm ((values.flatMap op.parts).map term)) :
    ((skip (paired patterns subjects) subjects).map term).Perm
      (((skip (patterns.map isConstant) values).flatMap op.parts).map term) := by
  have hpaired := paired_eq_of_parts hall hperm
  rcases pick_values hall with ⟨hpick, hparts⟩
  rcases exists_chosen hfaithful with ⟨chosen, hchosen, hequal⟩
  rw [hpaired, pick_map_self] at hequal
  have hchosenTerms : chosen.map term = (patterns.filter isConstant).map term := by
    refine map_term_of_forall₂ ?_
    rw [List.forall₂_iff_zip] at hequal ⊢
    refine ⟨hequal.1, fun {s p} hmem => ?_⟩
    have hs := hchosen.subset (List.of_mem_zip hmem).1
    exact hterm p (List.mem_of_mem_filter (List.of_mem_zip hmem).2) s (mem_of_mem_pick hs)
      (hequal.2 hmem).2
  have hsubjects : (chosen.map term ++ (skip (paired patterns subjects) subjects).map term).Perm
      (subjects.map term) := by
    rw [← List.map_append]
    exact ((hchosen.append_right _).trans (pick_append_skip_perm (by simp))).map term
  have hvalues : ((patterns.filter isConstant).map term ++
      ((skip (patterns.map isConstant) values).flatMap op.parts).map term).Perm
      ((values.flatMap op.parts).map term) := by
    have hsplit := @pick_append_skip_perm _ (patterns.map isConstant) values
      (by rw [List.length_map, hall.length_eq])
    have hflat := (hsplit.flatMap_right op.parts).map term
    rwa [List.flatMap_append, hpick, hparts, List.map_append] at hflat
  rw [hchosenTerms] at hsubjects
  exact (List.perm_append_left_iff _).mp ((hsubjects.trans hperm).trans hvalues.symm)

end

end Elimination

/-!
## Applications

A run of what a value contributes makes up the value again when it is wrapped up.  Every argument
finds the run of its own value, and with commutativity the constants are taken away first.
-/

section

variable {signature : Operator Atom → Prop} {sources : List Atom} {op other : Operator Atom}
  {mark listMark outerMark mark' listMark' outerMark' : Mark} {bound bound' : Bindings}
  {patterns subjects values : List Atom}

theorem sameTerm_wrap (hsignature : KeepingSignature signature) (hop : signature op)
    (hother : signature other) (hsame : op.SameTerm other)
    (hparameters : op.properties.isAssociative = true → op.parameters ≠ [])
    (hsubjects : ∀ atom ∈ subjects, Normal signature atom)
    (hflat : other.properties.isAssociative = true → other.Flat subjects) {run : List Atom}
    (hrun : run ⊆ subjects) {value : Atom} (hvalue : Normal signature value)
    (hall : List.Forall₂ SameTerm run (op.parts value)) :
    SameTerm value ((Wrapper.application (.operator other mark) other.properties).wrap run) := by
  by_cases hheads : op.properties.isAssociative = true ∧ op.heads value = true
  · rcases hheads with ⟨hassociative, hheads⟩
    have htwo := hsignature.two_le_length_pieces hop hassociative (hparameters hassociative) hvalue
      hheads
    rw [Operator.parts, if_pos hassociative] at hall
    rcases Operator.heads_eq_true_iff.mp hheads with
      ⟨inner, innerMark, argument, innerBound, outer, rfl, hbeq⟩
    rw [← hall.length_eq] at htwo
    rw [wrap_eq (hsignature.plain other hother) hsubjects hflat hrun htwo]
    rw [Operator.pieces_application hbeq] at hall
    cases hvalue with
    | application hinner hlist hinnerFlat haccepts =>
        have hinnerSame := hsignature.faithful inner op hinner hop
          ((Operator.beq_iff inner op).mp hbeq).2
        exact SameTerm.of_parts (hinnerSame.trans hsame) (hall.flip.imp fun _ _ h => h.symm)
  · have hparts : op.parts value = [value] := by
      refine Operator.parts_of_heads_eq_false fun hassociative => ?_
      simpa [hassociative] using hheads
    rw [hparts] at hall
    cases hall with
    | cons hfirst hrest =>
        cases hrest
        exact hfirst.symm

variable {engine : Engine} {evaluate : GuardEvaluator} {binds : Bindings}

def Rediscovers (signature : Operator Atom → Prop) (sources : List Atom) (engine : Engine)
    (evaluate : GuardEvaluator) (binds : Bindings) (pattern : Atom) : Prop :=
  ∀ value, engine.RewritesTo binds pattern value → ∀ subject, Subject signature subject →
    Involved signature sources subject → SameTerm value subject →
      Finds binds pattern.freeNames (search evaluate pattern subject)

theorem finds_runs (hsignature : KeepingSignature signature) (hbinds : binds.Grounds signature)
    (hop : signature op) (hother : signature other) (hsame : op.SameTerm other)
    (hparameters : op.properties.isAssociative = true → op.parameters ≠ [])
    (hpatterns : ∀ atom ∈ patterns, Normal signature atom ∧
      Rediscovers signature sources engine evaluate binds atom)
    (hsubjects : ∀ atom ∈ subjects, Normal signature atom)
    (hflat : other.properties.isAssociative = true → other.Flat subjects)
    (hvalues : List.Forall₂ (engine.RewritesTo binds) patterns values) {runs : List (List Atom)}
    (hruns : List.Forall₂ (fun run value => List.Forall₂ SameTerm run (op.parts value)) runs values)
    (hmet : ∀ run ∈ runs, run ⊆ subjects ∧
      Subject signature ((Wrapper.application (.operator other mark) other.properties).wrap run) ∧
      Involved signature sources
        ((Wrapper.application (.operator other mark) other.properties).wrap run)) :
    Finds binds (patterns.flatMap freeNames) (Element.matchAll (listElements evaluate patterns)
      (runs.map (Wrapper.application (.operator other mark) other.properties).wrap)) := by
  have hall := forall₂_of_common hvalues hruns
    (R := fun pattern run => Finds binds pattern.freeNames ((element evaluate pattern).matcher
      ((Wrapper.application (.operator other mark) other.properties).wrap run))) (by
    intro pattern hpattern run hrun value hrewrites hparts
    rcases hpatterns pattern hpattern with ⟨hnormal, hrediscovers⟩
    rcases hmet run hrun with ⟨hsub, hsubject, hinvolved⟩
    refine (hrediscovers value hrewrites _ hsubject hinvolved ?_).mono (List.Subset.refl _)
      fun start found hfound => hfound
    exact sameTerm_wrap hsignature hop hother hsame hparameters hsubjects hflat hsub
      (hrewrites.normal hsignature hbinds hnormal) hparts)
  have hfinds := @Element.finds_matchAll _ (listElements evaluate patterns)
    (runs.map (Wrapper.application (.operator other mark) other.properties).wrap) (by
    rw [listElements_eq_map, List.forall₂_map_left_iff, List.forall₂_map_right_iff]
    exact hall)
  rwa [map_pattern_listElements] at hfinds

/-- The arguments of an application, what they are rewritten to, and the subjects, which are what
these values contribute. -/
structure Instantiated (signature : Operator Atom → Prop) (sources : List Atom) (engine : Engine)
    (evaluate : GuardEvaluator) (binds : Bindings) (op other : Operator Atom)
    (patterns values subjects : List Atom) : Prop where
  left : signature op
  right : signature other
  same : op.SameTerm other
  nonempty : patterns ≠ []
  patternsNormal : ∀ atom ∈ patterns, Normal signature atom
  rediscovers : ∀ atom ∈ patterns, Rediscovers signature sources engine evaluate binds atom
  patternsFlat : op.properties.isAssociative = true → op.Flat patterns
  accepts : op.Accepts patterns.length
  subjectsNormal : ∀ atom ∈ subjects, Normal signature atom
  subjectsFlat : other.properties.isAssociative = true → other.Flat subjects
  rewritten : List.Forall₂ (engine.RewritesTo binds) patterns values
  contributed : subjects.map term = (values.flatMap op.parts).map term

namespace Instantiated

variable
  (h : Instantiated signature sources engine evaluate binds op other patterns values subjects)
include h

theorem parameters_ne_nil (hassociative : op.properties.isAssociative = true) :
    op.parameters ≠ [] := fun hnil =>
  h.nonempty (List.length_eq_zero_iff.mp (h.accepts.empty hassociative hnil))

theorem parts_ne_nil (hsignature : KeepingSignature signature) (hbinds : binds.Grounds signature) :
    ∀ value ∈ values, op.parts value ≠ [] := by
  intro value hvalue
  rcases exists_of_mem_forall₂ h.rewritten.flip hvalue with ⟨pattern, hpattern, hrewrites⟩
  exact hsignature.parts_ne_nil h.left h.parameters_ne_nil
    (Engine.RewritesTo.normal hsignature hbinds (h.patternsNormal pattern hpattern) hrewrites)

theorem constants (hsignature : KeepingSignature signature) :
    List.Forall₂ (fun pattern value => pattern.isConstant = true →
      value = pattern ∧ op.parts value = [value]) patterns values := by
  have hvalues := h.rewritten
  rw [List.forall₂_iff_zip] at hvalues ⊢
  refine ⟨hvalues.1, fun {pattern value} hmem hconstant => ?_⟩
  have hpattern := (List.of_mem_zip hmem).1
  have hequal := (hvalues.2 hmem).eq_of_isConstant hsignature.toPlainSignature
    (h.patternsNormal pattern hpattern) hconstant
  refine ⟨hequal, Operator.parts_of_heads_eq_false fun hassociative => ?_⟩
  rw [hequal]
  exact (h.patternsFlat hassociative).heads pattern hpattern

theorem patternsLeft_eq (hsignature : KeepingSignature signature) :
    Elimination.patternsLeft (listElements evaluate patterns) subjects =
      listElements evaluate (patterns.filter (!isConstant ·)) := by
  have hpaired := Elimination.paired_eq_of_parts (h.constants hsignature)
    (List.Perm.of_eq h.contributed)
  unfold Elimination.patternsLeft
  rw [map_pattern_listElements, hpaired, listElements_eq_map, Elimination.skip_map,
    Elimination.skip_map_self, ← listElements_eq_map]

theorem exists_runs_left (hsignature : KeepingSignature signature)
    (hbinds : binds.Grounds signature) (hfaithful : Elimination.Faithful patterns subjects)
    (hterm : ∀ p ∈ patterns, ∀ s ∈ subjects, (s == p) = true → SameTerm s p) :
    ∃ runs, Arrangement other.properties.isAssociative true
        (Elimination.subjectsLeft (listElements evaluate patterns) subjects)
        (Elimination.patternsLeft (listElements evaluate patterns) subjects).length runs ∧
      List.Forall₂ (fun run value => List.Forall₂ SameTerm run (op.parts value)) runs
        (Elimination.skip (patterns.map isConstant) values) := by
  have hleft := Elimination.perm_subjectsLeft (h.constants hsignature) hfaithful hterm
    (List.Perm.of_eq h.contributed)
  rcases @exists_arrangement_of_parts _ true _ _
    (fun value hvalue =>
      h.parts_ne_nil hsignature hbinds value (Elimination.mem_of_mem_skip hvalue))
    hleft (by simp) with ⟨runs, harrangement, hruns⟩
  have hskip := Elimination.forall₂_skip h.rewritten (patterns.map isConstant)
  rw [Elimination.skip_map_self] at hskip
  refine ⟨runs, ?_, hruns⟩
  rw [h.patternsLeft_eq hsignature, Elimination.subjectsLeft, map_pattern_listElements,
    length_listElements, hskip.length_eq, ← h.same.isAssociative]
  exact harrangement

variable (hsignature : KeepingSignature signature) (hbinds : binds.Grounds signature)
  (hinvolved : Involved signature sources (.application (.operator other mark')
    (.sequence ⟨other.properties, subjects⟩ listMark') bound' outerMark'))

include hsignature hbinds hinvolved

theorem finds_arranged {chosen chosenValues : List Atom} {runs whole : List (List Atom)}
    (hchosen : chosen ⊆ patterns)
    (hvalues : List.Forall₂ (engine.RewritesTo binds) chosen chosenValues)
    (hruns : List.Forall₂ (fun run value => List.Forall₂ SameTerm run (op.parts value)) runs
      chosenValues)
    (hwhole : Arrangement other.properties.isAssociative other.properties.isCommutative subjects
      patterns.length whole)
    (hincluded : runs ⊆ whole) :
    Finds binds (chosen.flatMap freeNames) (Element.matchAll (listElements evaluate chosen)
      (runs.map (Wrapper.application (.operator other mark') other.properties).wrap)) := by
  have hplain := hsignature.plain other h.right
  have hseveral := (h.same.accepts h.accepts).several
  refine finds_runs hsignature hbinds h.left h.right h.same h.parameters_ne_nil
    (fun pattern hpattern => ⟨h.patternsNormal pattern (hchosen hpattern),
      h.rediscovers pattern (hchosen hpattern)⟩) h.subjectsNormal h.subjectsFlat
    hvalues hruns fun run hrun => ⟨fun atom hatom => ?_, ?_⟩
  · exact hwhole.perm.subset (List.mem_flatten.mpr ⟨run, hincluded hrun, hatom⟩)
  · exact subject_of_run h.right hplain h.subjectsNormal h.subjectsFlat hinvolved hwhole hseveral
      (hincluded hrun)

theorem finds_ordered (hcommutative : other.properties.isCommutative = false) :
    Finds binds (patterns.flatMap freeNames)
      (Sequence.matchElements (.application (.operator other mark') other.properties)
        (listElements evaluate patterns) ⟨other.properties, subjects⟩) := by
  rcases @exists_arrangement_of_parts _ false _ _ (h.parts_ne_nil hsignature hbinds)
    (List.Perm.of_eq h.contributed) (fun _ => h.contributed) with ⟨runs, harrangement, hruns⟩
  rw [h.same.isAssociative, ← h.rewritten.length_eq, ← hcommutative] at harrangement
  have hfinds := h.finds_arranged hsignature hbinds hinvolved (List.Subset.refl _) h.rewritten hruns
    harrangement (List.Subset.refl _)
  refine hfinds.mono (List.Subset.refl _) fun start found hfound => ?_
  rw [Sequence.mem_matchElements_iff hcommutative]
  rw [hcommutative] at harrangement
  exact ⟨runs, by rwa [length_listElements], hfound⟩

/-- With commutativity, constants are taken away first.  They bind nothing, and the other arguments
find the runs of their values among what is left. -/
theorem finds_commutative (hcommutative : other.properties.isCommutative = true)
    (hfaithful : Elimination.Faithful patterns subjects)
    (hterm : ∀ p ∈ patterns, ∀ s ∈ subjects, (s == p) = true → SameTerm s p) :
    Finds binds (patterns.flatMap freeNames)
      (Sequence.matchElements (.application (.operator other mark') other.properties)
        (listElements evaluate patterns) ⟨other.properties, subjects⟩) := by
  have hfaithful' : Elimination.Faithful
      ((listElements evaluate patterns).map (·.pattern)) subjects := by
    rwa [map_pattern_listElements]
  rcases h.exists_runs_left hsignature hbinds hfaithful hterm with ⟨runs, harrangement, hruns⟩
  rcases @Sequence.exists_completed _ ⟨other.properties, subjects⟩ _ _ hfaithful' harrangement with
    ⟨whole, hwhole, hincluded⟩
  rw [length_listElements, ← hcommutative] at hwhole
  have hvalues := Elimination.forall₂_skip h.rewritten (patterns.map isConstant)
  rw [Elimination.skip_map_self] at hvalues
  have hfinds := h.finds_arranged hsignature hbinds hinvolved
    (fun _ hpattern => List.mem_of_mem_filter hpattern) hvalues hruns hwhole hincluded
  refine hfinds.mono (fun name hname => ?_) fun start found hfound => ?_
  · rw [List.mem_flatMap] at hname ⊢
    rcases hname with ⟨pattern, hpattern, hname⟩
    refine ⟨pattern, List.mem_filter.mpr ⟨hpattern, ?_⟩, hname⟩
    rw [Bool.not_eq_true', Bool.eq_false_iff]
    intro hconstant
    rw [(isConstant_iff_freeNames pattern).mp hconstant] at hname
    cases hname
  · have hleft := h.patternsLeft_eq hsignature
    rw [Sequence.mem_matchElements_commutative_iff hcommutative hfaithful']
    refine ⟨fun element helement hconstant => ?_, runs, harrangement, by rwa [hleft]⟩
    rw [hleft, listElements_eq_map, List.mem_map] at helement
    rcases helement with ⟨pattern, hpattern, rfl⟩
    change pattern.isConstant = true at hconstant
    simp [hconstant] at hpattern

/-- The step of the induction: the arguments of an application find the arguments of its
instance. -/
theorem finds_matchElements (hcollision : NoCollision (Involved signature sources))
    (hpattern : Involved signature sources (.application (.operator op mark)
      (.sequence ⟨op.properties, patterns⟩ listMark) bound outerMark)) :
    Finds binds (patterns.flatMap freeNames)
      (Sequence.matchElements (.application (.operator other mark') other.properties)
        (listElements evaluate patterns) ⟨other.properties, subjects⟩) := by
  have hpatternsInvolved : ∀ atom ∈ patterns, Involved signature sources atom :=
    fun atom => .element hpattern
  have hsubjectsInvolved : ∀ atom ∈ subjects, Involved signature sources atom :=
    fun atom => .element hinvolved
  cases hcommutative : other.properties.isCommutative with
  | false => exact h.finds_ordered hsignature hbinds hinvolved hcommutative
  | true =>
      exact h.finds_commutative hsignature hbinds hinvolved hcommutative
        (faithful_of_noCollision hcollision hpatternsInvolved hsubjectsInvolved)
        fun p hp s hs hbeq =>
          hcollision.sameTerm (hsubjectsInvolved s hs) (hpatternsInvolved p hp) hbeq

end Instantiated

/-!
## All normal terms
-/

theorem rediscovers_of_isConstant (hsignature : PlainSignature signature) {pattern : Atom}
    (hpattern : Normal signature pattern) (hconstant : pattern.isConstant = true) :
    Rediscovers signature sources engine evaluate binds pattern := by
  intro value hvalue subject _ _ hsame start hstart
  rw [hvalue.eq_of_isConstant hsignature hpattern hconstant] at hsame
  refine ⟨start, ?_, hstart, NameMap.Extends.refl start, ?_⟩
  · rw [alternatives_search_of_beq evaluate hconstant hsame.symm.beq]
    exact List.mem_singleton.mpr rfl
  · rw [(isConstant_iff_freeNames pattern).mp hconstant]
    simp

theorem rediscovers_of_isFree (hcollision : NoCollision (Involved signature sources))
    (hbinds : binds.Grounds signature) {name : String} {pattern : Atom}
    (hfree : pattern.IsFree name)
    (hinvolved : Involved signature sources pattern)
    (hname : (binds.find? name).isSome = true) :
    Rediscovers signature sources engine evaluate binds pattern := by
  rcases Option.isSome_iff_exists.mp hname with ⟨bound, hfind⟩
  intro value hvalue subject _ hsubjectInvolved hsame start hstart
  rw [hvalue.eq_of_find? hfree hfind] at hsame
  rw [hfree.freeNames]
  cases hstartFind : start.find? name with
  | none =>
      have hdiffers : ¬(pattern == subject) = true := by
        intro hbeq
        have hterm := hcollision.sameTerm hinvolved hsubjectInvolved hbeq
        rcases SameTerm.isFree (hterm.trans hsame.symm) hfree with ⟨type, mark, rfl, -⟩
        cases (hbinds name _ hfind).2
      refine ⟨start.insert name subject, ?_, hstart.insert hfind hsame.symm,
        NameMap.extends_insert hstartFind subject, ?_⟩
      · rw [alternatives_search_unbound hfree hstartFind, if_neg hdiffers]
        exact List.mem_singleton.mpr rfl
      · intro other hother
        rw [List.mem_singleton.mp hother, NameMap.find?_insert_self]
        rfl
  | some existing =>
      rcases hstart.agrees name existing hstartFind with ⟨bound', hfind', hexisting⟩
      rw [hfind, Option.some_inj] at hfind'
      subst hfind'
      refine ⟨start, ?_, hstart, NameMap.Extends.refl start, ?_⟩
      · rw [alternatives_search_bound hfree hstartFind, if_pos (hexisting.trans hsame).beq]
        exact List.mem_singleton.mpr rfl
      · intro other hother
        rw [List.mem_singleton.mp hother, hstartFind]
        rfl

/-- Matching a normal term with its instances finds the bindings of its variables again. -/
theorem rediscovers (hsignature : KeepingSignature signature) (hbinds : binds.Grounds signature)
    (hcollision : NoCollision (Involved signature sources)) {pattern : Atom}
    (hpattern : Normal signature pattern) (hinvolved : Involved signature sources pattern)
    (hnames : ∀ name ∈ pattern.freeNames, (binds.find? name).isSome = true) :
    Rediscovers signature sources engine evaluate binds pattern := by
  induction hpattern with
  | literal value type mark =>
      exact rediscovers_of_isConstant hsignature.toPlainSignature (.literal value type mark) rfl
  | var name type mark hany =>
      have hfree : IsFree name (.var name type none 0 mark) := ⟨type, mark, rfl, hany⟩
      exact rediscovers_of_isFree hcollision hbinds hfree hinvolved
        (hnames name (hfree.freeNames ▸ List.mem_singleton.mpr rfl))
  | @application op mark listMark outerMark patterns bound hop hlist hflat haccepts ih =>
      have hnormal : Normal signature (.application (.operator op mark)
          (.sequence ⟨op.properties, patterns⟩ listMark) bound outerMark) :=
        .application hop hlist hflat haccepts
      have hplain := hsignature.plain op hop
      have hfreeNames : freeNames (.application (.operator op mark)
          (.sequence ⟨op.properties, patterns⟩ listMark) bound outerMark) =
          patterns.flatMap freeNames := by
        have hlaws : op.properties.values.flatMap freeNames = [] :=
          List.flatMap_eq_nil_iff.mpr fun value hvalue => (isConstant_iff_freeNames value).mp
            (propertiesConstant_iff.mp hplain.constant value hvalue)
        rw [freeNames_application, freeNames_sequence, hlaws, List.nil_append]
        exact congrArg (· ++ _) ((isConstant_iff_freeNames (.operator op mark)).mp rfl)
      cases hconstant : isConstant (.application (.operator op mark)
          (.sequence ⟨op.properties, patterns⟩ listMark) bound outerMark) with
      | true => exact rediscovers_of_isConstant hsignature.toPlainSignature hnormal hconstant
      | false =>
          intro value hvalue subject hsubject hsubjectInvolved hsame
          have hdepth := hvalue.depth_le hsignature hbinds hnormal
          rw [((Atom.beq_iff value subject).mp hsame.beq).1] at hdepth
          rcases hvalue.application hsignature hbinds hop hlist hflat haccepts with
            ⟨values, hvalues, mark', listMark', bound', outerMark', rfl⟩
          rcases hsame.application with
            ⟨head, argument, bound'', outerMark'', rfl, hhead, hargument⟩
          rcases hsubject.of_application with
            ⟨other, otherMark, subjects, subjectsMark, rfl, rfl, hother, hsubjects, hsubjectsFlat⟩
          rcases hhead.operator with ⟨other', otherMark', heq, hsameOperator⟩
          cases heq
          rcases hargument.sequence with ⟨s, sMark, heq, -, helements⟩
          cases heq
          have hnone : patterns ≠ [] := by
            rintro rfl
            rw [Bool.eq_false_iff] at hconstant
            exact hconstant ((isConstant_iff_freeNames _).mpr hfreeNames)
          have hinstantiated : Instantiated signature sources engine evaluate binds op
              other patterns
              values subjects :=
            { left := hop, right := hother, same := hsameOperator, nonempty := hnone
              patternsNormal := hlist, patternsFlat := hflat, accepts := haccepts
              subjectsNormal := hsubjects, subjectsFlat := hsubjectsFlat
              rewritten := hvalues, contributed := helements.symm
              rediscovers := fun atom hatom => ih atom hatom (.element hinvolved hatom)
                fun name hname =>
                  hnames name (hfreeNames ▸ List.mem_flatMap.mpr ⟨atom, hatom, hname⟩) }
          have hfinds := hinstantiated.finds_matchElements hsignature hbinds hsubjectInvolved
            hcollision hinvolved
          rw [hfreeNames]
          refine hfinds.mono (List.Subset.refl _) fun start found hfound => ?_
          rw [search_application, alternatives_ofStructure hconstant hdepth,
            alternatives_headType hplain hsameOperator, List.flatMap_singleton,
            alternatives_applicationParts hplain hsameOperator]
          exact hfound

end

/-!
## Composed terms
-/

/-- Matching a composed term with its instance finds the bindings that made it. -/
theorem Engine.tryMatch_finds_bindings {signature : Operator Atom → Prop} {engine : Engine}
    {pattern : Atom} {binds : Bindings} {new : Rewritten Atom}
    (hplain : ∀ op, signature op → op.Plain ∧ op.properties.identity = none ∧
      op.properties.absorber = none)
    (hpattern : Composed signature pattern) (hascending : binds.Ascending)
    (hnames : ∀ name, (binds.find? name).isSome = true ↔ name ∈ pattern.freeNames)
    (hvalues : ∀ name atom, binds.find? name = some atom →
      Composed signature atom ∧ atom.isConstant = true)
    (hnew : (engine.rewrite binds pattern).result = .ok new)
    (hcollision : NoCollision (Involved signature [pattern, new.value])) :
    (engine.tryMatch pattern new.value .empty).value.isFailed = false ∧
      ∃ found ∈ (engine.tryMatch pattern new.value .empty).alternatives,
        (found == binds) = true := by
  have hplainSignature := plainSignature_of_noCollision (fun op hop => (hplain op hop).1) hcollision
  have hsignature : KeepingSignature signature :=
    { hplainSignature with
      identity := fun op hop => (hplain op hop).2.1
      absorber := fun op hop => (hplain op hop).2.2 }
  have hbinds : binds.Grounds signature := fun name atom hfind =>
    ⟨(hvalues name atom hfind).1.normal hplainSignature, (hvalues name atom hfind).2⟩
  have hnormal := hpattern.normal hplainSignature
  have hrewrites : engine.RewritesTo binds pattern new.value := ⟨engine.place, new, hnew, rfl⟩
  rcases rediscovers hsignature hbinds hcollision hnormal (.source (by simp))
    (fun name hname => (hnames name).mpr hname) new.value hrewrites new.value
    (.normal (hrewrites.normal hsignature hbinds hnormal)) (.source (by simp)) (Like.refl _)
    .empty (NameMap.within_empty binds) with ⟨found, hfound, hwithin, -, hbound⟩
  have hfound : found ∈ (engine.tryMatch pattern new.value .empty).alternatives := hfound
  refine ⟨?_, found, hfound, NameMap.beq_of_find? hwithin.ascending hascending fun name => ?_⟩
  · rw [Bool.eq_false_iff]
    intro hfailed
    rw [Traced.alternatives_eq_nil_of_isFailed hfailed] at hfound
    cases hfound
  · cases hfind : found.find? name with
    | some atom =>
        rcases hwithin.agrees name atom hfind with ⟨value, hvalue, hsame⟩
        rw [hvalue]
        exact congrArg some hsame
    | none =>
        cases hvalue : binds.find? name with
        | none => rfl
        | some value =>
            have hname := (hnames name).mp (by rw [hvalue]; rfl)
            have hsome := hbound name hname
            rw [hfind] at hsome
            cases hsome

/-!
### The bindings of a sum
-/

theorem keepingSignature_sum : KeepingSignature (· = Operator.sum) where
  plain := by
    rintro op rfl
    exact Operator.plain_sum
  faithful := by
    rintro op other rfl rfl _
    exact Operator.SameTerm.refl _
  identity := by
    rintro op rfl
    rfl
  absorber := by
    rintro op rfl
    rfl

def NameMap.numbered : Bindings := ⟨[("x", integer 1), ("y", integer 2)]⟩

theorem NameMap.eq_of_find?_numbered {name : String} {atom : Atom}
    (h : NameMap.numbered.find? name = some atom) :
    (name = "x" ∧ atom = integer 1) ∨ (name = "y" ∧ atom = integer 2) := by
  unfold NameMap.numbered NameMap.find? at h
  simp only [List.lookup_cons, List.lookup_nil] at h
  split at h
  · rename_i hname
    exact Or.inl ⟨by simpa using hname, (Option.some_inj.mp h).symm⟩
  · split at h
    · rename_i hname
      exact Or.inr ⟨by simpa using hname, (Option.some_inj.mp h).symm⟩
    · cases h

theorem grounds_numbered : NameMap.numbered.Grounds (· = Operator.sum) := by
  intro name atom hfind
  rcases NameMap.eq_of_find?_numbered hfind with ⟨-, rfl⟩ | ⟨-, rfl⟩
  · exact ⟨.literal _ _ _, rfl⟩
  · exact ⟨.literal _ _ _, rfl⟩

theorem sameTerm_of_rewritesTo_sum {value : Atom}
    (h : Engine.idle.RewritesTo .numbered (sum (free "x" any) (free "y" any)) value) :
    SameTerm value (Operator.sum.assembled [integer 1, integer 2] .empty) := by
  rcases sum_variables with ⟨hcomposed, bound, hsum⟩
  have hnormal := hcomposed.normal keepingSignature_sum.toPlainSignature
  rw [hsum] at h hnormal
  cases hnormal with
  | application hop hlist hflat haccepts =>
      rcases h.application keepingSignature_sum grounds_numbered hop hlist hflat haccepts with
        ⟨values, hvalues, mark, listMark, bound', outerMark, rfl⟩
      rcases hvalues with - | ⟨hx, - | ⟨hy, hnil⟩⟩
      cases hnil
      rw [hx.eq_of_find? ⟨any, .new, rfl, rfl⟩ rfl, hy.eq_of_find? ⟨any, .new, rfl, rfl⟩ rfl]
      rfl

theorem Engine.tryMatch_finds_numbers :
    ∃ new, (Engine.idle.rewrite .numbered (sum (free "x" any) (free "y" any))).result = .ok new ∧
      (Engine.idle.tryMatch (sum (free "x" any) (free "y" any)) new.value .empty).value.isFailed =
        false ∧
      ∃ found ∈ (Engine.idle.tryMatch (sum (free "x" any) (free "y" any)) new.value
        .empty).alternatives, (found == NameMap.numbered) = true := by
  rcases sum_variables with ⟨hpattern, bound, hsum⟩
  have hok : (Engine.idle.rewrite .numbered
      (sum (free "x" any) (free "y" any))).result.isOk = true := by
    decide +kernel
  cases hnew : (Engine.idle.rewrite .numbered (sum (free "x" any) (free "y" any))).result with
  | error error =>
      rw [hnew] at hok
      cases hok
  | ok new =>
      refine ⟨new, rfl, @Engine.tryMatch_finds_bindings (· = .sum) _ _ _ _ ?_ hpattern ?_ ?_ ?_ hnew
        ?_⟩
      · rintro op rfl
        exact ⟨Operator.plain_sum, rfl, rfl⟩
      · exact List.pairwise_pair.mpr (by decide)
      · intro name
        rw [hsum]
        change _ ↔ name ∈ ["x", "y"]
        constructor
        · intro h
          rcases Option.isSome_iff_exists.mp h with ⟨atom, hatom⟩
          rcases NameMap.eq_of_find?_numbered hatom with ⟨rfl, -⟩ | ⟨rfl, -⟩ <;> simp
        · intro h
          simp only [List.mem_cons, List.not_mem_nil, or_false] at h
          rcases h with rfl | rfl <;> rfl
      · intro name atom hfind
        rcases NameMap.eq_of_find?_numbered hfind with ⟨-, rfl⟩ | ⟨-, rfl⟩
        · exact ⟨.literal _ _ _, rfl⟩
        · exact ⟨.literal _ _ _, rfl⟩
      · apply noCollision_sumTerms
        intro a ha
        simp only [List.mem_cons, List.not_mem_nil, or_false] at ha
        rcases ha with ha | ha
        · rw [ha, hsum]
          exact ⟨_, by simp [sumTerms],
            sameTerm_assembled .sum [free "x" any, free "y" any] bound .empty⟩
        · rw [ha]
          exact ⟨_, by simp [sumTerms],
            sameTerm_of_rewritesTo_sum ⟨Engine.idle.place, new, hnew, rfl⟩⟩

end Equational
