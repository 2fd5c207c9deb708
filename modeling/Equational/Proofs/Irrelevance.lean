import Equational.Proofs.Traces
import Equational.Proofs.WellMade

/-!
# Names without influence

Bindings are looked up by name: where a pattern variable is matched, and where a
guard is rewritten.  What is bound to any other name has no influence on a match.
It is carried along, and otherwise the same binding sets are found in the same
order.
-/

namespace Equational

/-!
## Binding sets that differ in one name
-/

namespace NameMap

variable {α : Type}

theorem lt_or_lt_of_ne {name other : String} (hne : name ≠ other) :
    name < other ∨ other < name := by
  by_cases hlt : name < other
  · exact Or.inl hlt
  · exact Or.inr (String.not_le.mp fun hle => hne (String.le_antisymm hle (String.not_lt.mp hlt)))

theorem insertEntry_comm {name other : String} (hlt : name < other) (value value' : α)
    (entries : List (String × α)) :
    insertEntry name value (insertEntry other value' entries) =
      insertEntry other value' (insertEntry name value entries) := by
  have hnot : ¬other < name := String.lt_asymm hlt
  have hne : other ≠ name := (String.ne_of_lt hlt).symm
  induction entries with
  | nil => simp [insertEntry, hlt, hnot, hne]
  | cons entry rest ih =>
      rcases entry with ⟨key, old⟩
      by_cases hbefore : name < key
      · -- the name stands in front of the entry, wherever the other one comes to stand
        by_cases hother : other < key
        · simp [insertEntry, hbefore, hother, hlt, hnot, hne]
        · by_cases hsame : other = key
          · simp [insertEntry, ← hsame, hlt, hnot, hne]
          · simp [insertEntry, hbefore, hother, hsame, hnot, hne]
      · by_cases hsame : name = key
        · simp [insertEntry, ← hsame, hnot, hne]
        · have hafter : key < other :=
            String.lt_trans ((lt_or_lt_of_ne hsame).resolve_left hbefore) hlt
          have hother : ¬other < key := String.lt_asymm hafter
          have hdiffer : other ≠ key := (String.ne_of_lt hafter).symm
          simp [insertEntry, hbefore, hsame, hother, hdiffer, ih]

theorem insert_comm {name other : String} (hne : name ≠ other) (value value' : α)
    (m : NameMap α) :
    (m.insert name value).insert other value' = (m.insert other value').insert name value := by
  rcases lt_or_lt_of_ne hne with hlt | hlt
  · exact congrArg mk (insertEntry_comm hlt value value' m.entries).symm
  · exact congrArg mk (insertEntry_comm hlt value' value m.entries)

theorem isEmpty_insert (m : NameMap α) (name : String) (value : α) :
    (m.insert name value).isEmpty = false := by
  rcases m with ⟨entries⟩
  cases entries with
  | nil => rfl
  | cons entry rest =>
      simp only [isEmpty, insert, insertEntry]
      split
      · rfl
      · split
        · rfl
        · rfl

theorem eq_of_find?_insert_ne {binds : Bindings} {name key : String} {value : Atom}
    (h : (binds.insert name value).find? key ≠ binds.find? key) : key = name := by
  by_contra hne
  exact h (find?_insert_of_ne binds value hne)

end NameMap

/-!
## Rewriting

Rewriting depends on the names of the variables in an atom only.
-/

namespace Atom

def Unnamed (name : String) : Atom → Prop
  | var other _ _ _ _ => other ≠ name
  | _ => True

variable {name : String} {apply : Place → Atom → Atom → Evaluation Atom} {binds other : Bindings}

/-- No variable in an atom has a name that the binding sets do not agree on. -/
def Undisputed (binds other : Bindings) (holds : (Atom → Prop) → Prop) : Prop :=
  ∀ name, other.find? name ≠ binds.find? name → holds (Unnamed name)

theorem isInert_congr (h : other.isEmpty = binds.isEmpty) (atom : Atom) :
    atom.isInert other = atom.isInert binds := by
  rw [isInert, isInert, h]

mutual

theorem rewriteWith_congr (h : other.isEmpty = binds.isEmpty) (place : Place) :
    ∀ atom : Atom, Undisputed binds other (Everywhere · atom) →
      rewriteWith apply other place atom = rewriteWith apply binds place atom
  | typeUniverse _, _ => rfl
  | root _ _, _ => rfl
  | literal _ _ _, _ => rfl
  | operator _ _, _ => rfl
  | var key type guard index mark, hnames => by
      have hfind : other.find? key = binds.find? key := by
        by_contra hne
        exact (hnames key hne).1 rfl
      rw [rewriteWith, rewriteWith, isInert_congr h, hfind,
        rewriteWith_congr h _ type fun name hne => (hnames name hne).2.1,
        rewriteOption_congr h _ guard fun name hne => (hnames name hne).2.2]
  | lambda parameter body mark, hnames => by
      rw [rewriteWith, rewriteWith, isInert_congr h,
        rewriteWith_congr h _ body fun name hne => (hnames name hne).2.2]
  | sequence ⟨properties, elements⟩ mark, hnames => by
      rw [rewriteWith, rewriteWith, rewriteSequence, rewriteSequence, isInert_congr h,
        rewriteProperties_congr h _ properties fun name hne => (hnames name hne).2.1,
        rewriteList_congr h _ elements fun name hne => (hnames name hne).2.2]
  | propertySet properties mark, hnames => by
      rw [rewriteWith, rewriteWith,
        rewriteProperties_congr h _ properties fun name hne => (hnames name hne).2]
  | application head argument bound mark, hnames => by
      rw [rewriteWith, rewriteWith, isInert_congr h,
        rewriteWith_congr h _ head fun name hne => (hnames name hne).2.1,
        rewriteWith_congr h _ argument fun name hne => (hnames name hne).2.2]

theorem rewriteList_congr (h : other.isEmpty = binds.isEmpty) (place : Place) :
    ∀ list : List Atom, Undisputed binds other (ListEverywhere · list) →
      rewriteList apply other place list = rewriteList apply binds place list
  | [], _ => rfl
  | atom :: rest, hnames => by
      rw [rewriteList, rewriteList, rewriteWith_congr h _ atom fun name hne => (hnames name hne).1,
        rewriteList_congr h _ rest fun name hne => (hnames name hne).2]

theorem rewriteOption_congr (h : other.isEmpty = binds.isEmpty) (place : Place) :
    ∀ value : Option Atom, Undisputed binds other (OptionEverywhere · value) →
      rewriteOption apply other place value = rewriteOption apply binds place value
  | none, _ => rfl
  | some atom, hnames => by
      rw [rewriteOption, rewriteOption, rewriteWith_congr h _ atom hnames]

theorem rewriteProperties_congr (h : other.isEmpty = binds.isEmpty) (place : Place) :
    ∀ properties : Properties, Undisputed binds other (PropertiesEverywhere · properties) →
      rewriteProperties apply other place properties =
        rewriteProperties apply binds place properties
  | ⟨a, c, i, b, d⟩, hnames => by
      rw [rewriteProperties, rewriteProperties, isInert_congr h,
        rewriteOption_congr h _ a fun name hne => (hnames name hne).1,
        rewriteOption_congr h _ c fun name hne => (hnames name hne).2.1,
        rewriteOption_congr h _ i fun name hne => (hnames name hne).2.2.1,
        rewriteOption_congr h _ b fun name hne => (hnames name hne).2.2.2.1,
        rewriteOption_congr h _ d fun name hne => (hnames name hne).2.2.2.2]

end

/-!
## The variables that a match meets
-/

theorem patternVariables_of_everywhere (pattern : Atom) (h : pattern.Everywhere (Unnamed name)) :
    ∀ v ∈ patternVariables pattern, v.1 ≠ name ∧ OptionEverywhere (Unnamed name) v.2 := by
  intro v hv
  rcases List.mem_flatMap.mp hv with ⟨⟨place, atom⟩, hvisit, hv⟩
  have hatom : atom.Everywhere (Unnamed name) := h.of_mem_visited hvisit
  cases atom with
  | var key type guard index mark =>
      dsimp only [freeVariable] at hv
      split at hv
      · rw [List.mem_singleton.mp hv]
        exact ⟨hatom.1, hatom.2.2⟩
      · cases hv
  | _ => cases hv

end Atom

/-!
## Searches under one name more

The other outcome has the alternatives of the first one, in the same order, each with the name in
addition.  All ways of putting searches together keep that, and so does a pattern variable of
another name whose guard does not mention the name.
-/

namespace Traced

/-- The other outcome has the alternatives of the first one, in the same order, each with the name
bound to the value. -/
def Carries (name : String) (value : Atom) (outcome other : Traced Outcome) : Prop :=
  other.alternatives = outcome.alternatives.map (·.insert name value)

variable {name : String} {value : Atom}

theorem carries_found (binds : Bindings) :
    Carries name value (of (.found binds)) (of (.found (binds.insert name value))) := rfl

theorem carries_failed (failure other : Failure) :
    Carries name value (of (.failed failure)) (of (.failed other)) := rfl

theorem Carries.mapFailure {outcome other : Traced Outcome} (h : Carries name value outcome other)
    (f : Failure → Failure) : Carries name value (outcome.mapFailure f) (other.mapFailure f) := by
  rw [Carries, alternatives_mapFailure, alternatives_mapFailure]
  exact h

theorem Carries.continued {outcome other : Traced Outcome} (h : Carries name value outcome other)
    {next : Bindings → Traced Outcome}
    (hnext : ∀ binds, Carries name value (next binds) (next (binds.insert name value))) :
    Carries name value (outcome.continued next) (other.continued next) := by
  rw [Carries, alternatives_continued, alternatives_continued, h, List.flatMap_map,
    List.map_flatMap]
  exact List.flatMap_congr fun found _ => hnext found

theorem carries_firstOf {alternatives others : Stream}
    (h : others.bindings = alternatives.bindings.map (·.insert name value)) (onEmpty : Failure) :
    Carries name value (Outcome.firstOf onEmpty alternatives) (Outcome.firstOf onEmpty others) := by
  rw [Carries, Outcome.alternatives_firstOf, Outcome.alternatives_firstOf]
  exact h

end Traced

/-- An atom in which no variable has the name evaluates to the same with and without a binding of
the name. -/
def GuardEvaluator.Ignores (evaluate : GuardEvaluator) (name : String) (value : Atom) : Prop :=
  ∀ (binds : Bindings) (atom : Atom), binds.isEmpty = false → atom.Everywhere (Atom.Unnamed name) →
    evaluate (binds.insert name value) atom = evaluate binds atom

namespace Search

open Traced

/-- The search finds the same when the name is bound beforehand, and keeps it bound. -/
def Ignores (name : String) (value : Atom) (search : Search) : Prop :=
  ∀ binds, Carries name value (search binds) (search (binds.insert name value))

variable {name : String} {value : Atom}

theorem ignores_bind {evaluate : GuardEvaluator} (h : evaluate.Ignores name value)
    (pattern subject : Atom) {other : String} (hname : other ≠ name) {guard : Option Atom}
    (hguard : Atom.OptionEverywhere (Atom.Unnamed name) guard) :
    Ignores name value (Matcher.bind evaluate pattern other guard subject) := by
  intro binds
  unfold Matcher.bind
  rw [NameMap.find?_insert_of_ne binds value hname]
  cases binds.find? other with
  | some existing =>
      simp only
      split
      · exact carries_found binds
      · exact carries_failed _ _
  | none =>
      simp only
      -- the guard is rewritten after the subject was bound, so never under an empty binding set
      have hextended := NameMap.insert_comm hname.symm value subject binds
      rw [hextended]
      cases guard with
      | none => exact carries_found _
      | some condition =>
          simp only
          rw [h _ _ (NameMap.isEmpty_insert binds other subject) hguard, Carries,
            alternatives_andThen, alternatives_andThen]
          split
          · exact carries_failed _ _
          · split
            · exact carries_found _
            · exact carries_failed _ _

theorem closed_ignores : Closed (fun _ => True) (Ignores name value) fun alternatives =>
    ∀ binds, (alternatives (binds.insert name value)).bindings =
      (alternatives binds).bindings.map (·.insert name value) where
  inherited := inherited_true
  found := carries_found
  failed failure _ := carries_failed failure failure
  watched hsearch := hsearch
  mapFailure f hsearch binds := (hsearch binds).mapFailure f
  continued hsearch hnext binds := (hsearch binds).continued hnext
  noticed _ hsearch := hsearch
  firstOf onEmpty halternatives binds := carries_firstOf (halternatives binds) onEmpty
  all notice hsearch := by
    intro binds
    rw [Stream.bindings_noticed, Stream.bindings_noticed, bindings_stream, bindings_stream]
    exact hsearch binds
  flatMap hf := by
    intro binds
    rw [Stream.bindings_flatMap, Stream.bindings_flatMap, List.map_flatMap]
    exact List.flatMap_congr fun a ha => hf a ha binds

theorem closedUnderBinding_ignores {evaluate : GuardEvaluator} (h : evaluate.Ignores name value) :
    ClosedUnderBinding evaluate
      (fun other guard => other ≠ name ∧ Atom.OptionEverywhere (Atom.Unnamed name) guard)
      (fun _ => True) (Ignores name value) fun alternatives =>
        ∀ binds, (alternatives (binds.insert name value)).bindings =
          (alternatives binds).bindings.map (·.insert name value) where
  toClosed := closed_ignores
  known hnames := by
    intro binds
    beta_reduce
    rw [NameMap.find?_insert_of_ne binds value hnames.1]
    split
    · split
      · exact carries_found binds
      · exact carries_failed _ _
    · exact carries_found binds
  bind hnames _ := ignores_bind h _ _ hnames.1 hnames.2

end Search

/-!
## The search of an engine
-/

namespace Engine

/-- Evaluation depends on the names of the variables in an atom only.  Also the shortcut for empty
binding sets is taken alike, since guards are rewritten under binding sets that are not empty. -/
theorem evaluate_congr (engine : Engine) {binds other : Bindings} (hbinds : binds.isEmpty = false)
    (hother : other.isEmpty = false) {atom : Atom}
    (hnames : Atom.Undisputed binds other (Atom.Everywhere · atom)) :
    engine.evaluate other atom = engine.evaluate binds atom := by
  rw [evaluate, evaluate, rewrite, rewrite,
    Atom.rewriteWith_congr (hother.trans hbinds.symm) _ atom hnames]

theorem ignores_evaluate (engine : Engine) (name : String) (value : Atom) :
    engine.evaluate.Ignores name value := fun binds _ hbinds hnames =>
  engine.evaluate_congr hbinds (NameMap.isEmpty_insert binds name value) fun _ hne =>
    NameMap.eq_of_find?_insert_ne hne ▸ hnames

/-- A binding has no influence on a match if no variable in the pattern has its name: the match
fails under it if it fails without it, and else finds the same binding sets in the same order, each
of them with the binding added. -/
theorem tryMatch_insert (engine : Engine) {pattern : Atom} {name : String}
    (h : pattern.Everywhere (Atom.Unnamed name)) (value subject : Atom) (binds : Bindings) :
    (engine.tryMatch pattern subject (binds.insert name value)).value.isFailed =
        (engine.tryMatch pattern subject binds).value.isFailed ∧
      (engine.tryMatch pattern subject (binds.insert name value)).alternatives =
        (engine.tryMatch pattern subject binds).alternatives.map (·.insert name value) := by
  have hclosed := Search.closedUnderBinding_ignores (engine.ignores_evaluate name value)
  have hsearch := Atom.holds_search hclosed pattern (Atom.patternVariables_of_everywhere pattern h)
  have halternatives : Traced.Carries name value (engine.tryMatch pattern subject binds)
      (engine.tryMatch pattern subject (binds.insert name value)) :=
    Matcher.holds_watched hclosed.toClosed hsearch subject trivial binds
  refine ⟨?_, halternatives⟩
  rw [Bool.eq_iff_iff, (engine.balanced_tryMatch _ _ _).ready.isFailed_iff,
    (engine.balanced_tryMatch _ _ _).ready.isFailed_iff]
  have hbindings : (engine.tryMatch pattern subject (binds.insert name value)).value.bindings =
      (engine.tryMatch pattern subject binds).value.bindings.map (·.insert name value) :=
    halternatives
  rw [hbindings, List.map_eq_nil_iff]

/-- A commutative pair of a variable that is its own guard, and a variable that takes anything. -/
def guardedPair : Atom :=
  .sequence ⟨⟨none, some (.boolean true), none, none, none⟩,
    [.var "x" .any (some (.free "x" .any)) 0 .new, .free "y" .any]⟩ .new

def flaggedPair : Atom :=
  .sequence ⟨⟨none, some (.boolean true), none, none, none⟩, [.integer 1, .boolean true]⟩ .new

theorem tryMatch_insert_guardedPair :
    guardedPair.Everywhere (Atom.Unnamed "z") ∧
      (tryMatch ⟨fun _ _ => none, 1, []⟩ guardedPair flaggedPair
        (NameMap.empty.insert "z" (.integer 5))).value.isFailed = false ∧
      (tryMatch ⟨fun _ _ => none, 1, []⟩ guardedPair flaggedPair
          (NameMap.empty.insert "z" (.integer 5))).alternatives =
        (tryMatch ⟨fun _ _ => none, 1, []⟩ guardedPair flaggedPair .empty).alternatives.map
          (·.insert "z" (.integer 5)) := by
  have hnames : guardedPair.Everywhere (Atom.Unnamed "z") := by
    simp [guardedPair, Atom.free, Atom.any, Atom.boolean, Atom.ofLiteral, Atom.Everywhere,
      Atom.PropertiesEverywhere, Atom.OptionEverywhere, Atom.ListEverywhere, Atom.Unnamed]
  have hinsert := tryMatch_insert ⟨fun _ _ => none, 1, []⟩ hnames (.integer 5) flaggedPair .empty
  refine ⟨hnames, ?_, hinsert.2⟩
  rw [hinsert.1]
  decide +kernel

end Engine

end Equational
