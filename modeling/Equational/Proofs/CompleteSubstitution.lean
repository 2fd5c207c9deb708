import Equational.Proofs.Building
import Equational.Proofs.RigidHeads
import Equational.Proofs.Termination

/-!
# What rewriting leaves

Rewriting looks for variables in elements and laws, in heads and arguments, in
the bodies of lambdas, and in the types and guards of pattern variables.  The
types of literals, the parameters of lambdas, and the types and guards of the
variables that lambdas bind are hidden from it, whatever occurs in them.  So it
leaves no bound name where none is hidden, and lets a hidden one stand.

Names stay out of the hidden places on the way: what is put in the place of a
variable is one of the bound atoms, and application puts together anew what was
there before.
-/

namespace Equational

open Evaluation

namespace Atom

/-!
## The names in an atom
-/

/-- The names of the pattern variables that stand anywhere in an atom, those in types and guards and
in the parameters of lambdas included.  What operators declare and what applications store does not
count. -/
def occurringNames : Atom → List String := gather (fun atom _ => atom.operator?.isNone) freeName

/-- Rewriting looks for names at a part if it looks for them at the atom, and reaches the part from
there.  Formal parameters do not count. -/
def soughtPart (sought : Bool) (atom : Atom) : Role → Option Bool
  | .formal => none
  | role => some (sought && atom.reaches role)

/-- An atom has none of the given names itself: as a pattern variable none of the shown names, where
rewriting looks for them, and none of the hidden names elsewhere; as an operator it is without
native evaluation. -/
def LacksOwn (hidden shown : String → Prop) (sought : Bool) : Atom → Prop
  | var name _ _ index _ => index = 0 → ¬if sought then shown name else hidden name
  | operator op _ => op.native = none
  | _ => True

/-- No pattern variable in an atom has one of the given names: none of the hidden names in the
places that are hidden from rewriting, and none of the shown names in the others.  Operators are
without native evaluation, and what they declare is hidden, save for their parameters. -/
def Lacks (hidden shown : String → Prop) (atom : Atom) : Prop :=
  ∀ visit ∈ atom.visited soughtPart true, visit.2.LacksOwn hidden shown visit.1

section

variable (hidden shown : String → Prop) [DecidablePred hidden] [DecidablePred shown]

instance (sought : Bool) : DecidablePred (LacksOwn hidden shown sought)
  | var name _ _ index _ =>
    inferInstanceAs (Decidable (index = 0 → ¬if sought then shown name else hidden name))
  | operator op _ => inferInstanceAs (Decidable (op.native = none))
  | typeUniverse _ | root .. | literal .. | lambda .. | sequence .. | propertySet ..
  | application .. => instDecidableTrue

instance : DecidablePred (Lacks hidden shown) := fun atom =>
  inferInstanceAs (Decidable (∀ visit ∈ atom.visited soughtPart true,
    visit.2.LacksOwn hidden shown visit.1))

end

variable {hidden shown other names : String → Prop} {mark : Mark}

theorem soughtPart_eq_some {sought inner : Bool} {atom : Atom} {role : Role} :
    soughtPart sought atom role = some inner ↔
      inner = (sought && atom.reaches role) ∧ role ≠ .formal := by
  cases role <;> simp [soughtPart, eq_comm]

theorem forall_hidden_iff {atom : Atom} {sought : Bool} :
    (∀ visit ∈ atom.visited soughtPart false, visit.2.LacksOwn hidden shown visit.1) ↔
      ∀ visit ∈ atom.visited soughtPart sought, visit.2.LacksOwn hidden hidden visit.1 := by
  induction atom using parts_induction generalizing sought with
  | step atom ih =>
      rw [forall_mem_visited, forall_mem_visited]
      refine and_congr ?_ (forall₂_congr fun part hpart => ?_)
      · cases atom <;> simp [LacksOwn]
      · simp only [soughtPart_eq_some, and_imp, forall_eq, Bool.false_and]
        exact forall_congr' fun _ => ih part hpart

theorem lacks_iff {atom : Atom} : atom.Lacks hidden shown ↔ atom.LacksOwn hidden shown true ∧
    ∀ part ∈ atom.parts, part.1 ≠ .formal →
      part.2.Lacks hidden (if atom.reaches part.1 then shown else hidden) := by
  rw [Lacks, forall_mem_visited]
  refine and_congr_right fun _ => forall₂_congr fun part _ => ?_
  simp only [soughtPart_eq_some, and_imp, forall_eq, Bool.true_and]
  refine forall_congr' fun _ => ?_
  cases atom.reaches part.1 with
  | false => exact forall_hidden_iff
  | true => exact Iff.rfl

theorem lacks_of_parts_eq_nil {atom : Atom} (hparts : atom.parts = [])
    (hown : atom.LacksOwn hidden shown true) : atom.Lacks hidden shown := by
  rw [lacks_iff, hparts]
  exact ⟨hown, List.forall_mem_nil _⟩

theorem lacks_literal {value : Literal} {type : Atom} :
    (literal value type mark).Lacks hidden shown ↔ type.Lacks hidden hidden := by
  rw [lacks_iff]
  simp [LacksOwn, parts, reaches, isFreeVar]

theorem lacks_freeVar {name : String} {type : Atom} {guard : Option Atom} :
    (var name type guard 0 mark).Lacks hidden shown ↔
      ¬shown name ∧ type.Lacks hidden shown ∧ ∀ atom ∈ guard, atom.Lacks hidden shown := by
  rw [lacks_iff]
  simp [LacksOwn, parts, reaches, isFreeVar]

theorem lacks_boundVar {name : String} {type : Atom} {guard : Option Atom} {index : UInt64}
    (hindex : index ≠ 0) : (var name type guard index mark).Lacks hidden shown ↔
      type.Lacks hidden hidden ∧ ∀ atom ∈ guard, atom.Lacks hidden hidden := by
  rw [lacks_iff]
  simp [LacksOwn, parts, reaches, isFreeVar, hindex]

theorem lacks_lambda {parameter body : Atom} : (lambda parameter body mark).Lacks hidden shown ↔
    parameter.Lacks hidden hidden ∧ body.Lacks hidden shown := by
  rw [lacks_iff]
  simp [LacksOwn, parts, reaches, Role.isShown]

theorem lacks_sequence {s : Sequence Atom} : (sequence s mark).Lacks hidden shown ↔
    (∀ value ∈ s.properties.values, value.Lacks hidden shown) ∧
      ∀ atom ∈ s.elements, atom.Lacks hidden shown := by
  rw [lacks_iff]
  simp [LacksOwn, parts, reaches, Role.isShown, or_imp, forall_and]

theorem lacks_propertySet {properties : Properties} :
    (propertySet properties mark).Lacks hidden shown ↔
      ∀ value ∈ properties.values, value.Lacks hidden shown := by
  rw [lacks_iff]
  simp [LacksOwn, parts, reaches, Role.isShown]

theorem lacks_operator {op : Operator Atom} : (operator op mark).Lacks hidden shown ↔
    op.native = none ∧ (∀ value ∈ op.properties.values, value.Lacks hidden hidden) ∧
      ∀ type ∈ op.resultType, type.Lacks hidden hidden := by
  rw [lacks_iff]
  simp [LacksOwn, parts, reaches, Role.isShown, or_imp, forall_and]

theorem lacks_application {head argument : Atom} {bound : Bindings} :
    (application head argument bound mark).Lacks hidden shown ↔
      head.Lacks hidden shown ∧ argument.Lacks hidden shown := by
  rw [lacks_iff]
  simp [LacksOwn, parts, reaches, Role.isShown]

/-- A constant shows no names, so that it lacks all others as well where it shows them. -/
theorem Lacks.of_shown {atom : Atom} (h : atom.Lacks hidden shown) :
    (atom.isConstant = true ∨ ∀ name, other name → shown name) → atom.Lacks hidden other := by
  induction atom using parts_induction with
  | step atom ih =>
      intro hnames
      rw [lacks_iff] at h ⊢
      constructor
      · cases atom with
        | var name type guard index mark =>
            intro hindex hname
            refine h.1 hindex (hnames.elim (fun hconstant => ?_) fun himp => himp name hname)
            rw [hindex] at hconstant
            cases hconstant
        | _ => exact h.1
      · intro part hpart hformal
        have hlacks := h.2 part hpart hformal
        cases hreach : atom.reaches part.1 with
        | false => rwa [hreach] at hlacks
        | true =>
            rw [hreach] at hlacks
            refine ih part hpart hlacks (hnames.imp_left fun hconstant => ?_)
            exact isConstant_of_reaches hconstant hpart hreach

theorem Lacks.parts {atom : Atom} (h : atom.Lacks names names)
    (hop : atom.operator?.isNone = true) :
    ∀ part ∈ atom.parts, part.2.Lacks names names := by
  rintro ⟨role, part⟩ hpart
  have hlacks := (lacks_iff.mp h).2 _ hpart fun hformal => by
    -- only operators have formal parameters
    cases hformal
    cases atom <;> simp [Atom.parts] at hpart
    cases hop
  rwa [ite_self] at hlacks

theorem Lacks.not_mem {name : String} (hname : names name) (atom : Atom)
    (h : atom.Lacks names names) : name ∉ atom.occurringNames := by
  induction atom using parts_induction with
  | step atom ih =>
      intro hmem
      rcases mem_gather.mp hmem with hown | ⟨part, hpart, hop, hmem⟩
      · have hlacks := (lacks_iff.mp h).1
        cases atom with
        | var own type guard index mark =>
            rw [freeName] at hown
            split at hown
            · rename_i hindex
              rw [List.mem_singleton.mp hown] at hname
              exact hlacks hindex hname
            · cases hown
        | _ => cases hown
      · exact ih part hpart (h.parts hop part hpart) hmem

theorem lacksOwn_bare (atom : Atom) :
    (bare id atom).LacksOwn hidden shown true ↔ atom.LacksOwn hidden shown true := by
  cases atom with
  | sequence s mark => rw [bare_sequence]; exact Iff.rfl
  | operator op mark => rw [bare_operator]; exact Iff.rfl
  | _ => exact Iff.rfl

theorem lacks_bare (shown : String → Prop) (atom : Atom) :
    (bare id atom).Lacks hidden shown ↔ atom.Lacks hidden shown := by
  induction atom using parts_induction generalizing shown with
  | step atom ih =>
      rw [lacks_iff, @lacks_iff _ _ atom, parts_bare, List.forall_mem_map, lacksOwn_bare]
      refine and_congr_right fun _ => forall₂_congr fun part hpart => ?_
      rw [reaches_bare]
      exact imp_congr_right fun _ => ih part hpart _

theorem Lacks.of_like {a b : Atom} (h : Like id a b) (ha : a.Lacks hidden shown) :
    b.Lacks hidden shown := by
  rw [← lacks_bare] at ha ⊢
  rwa [← h]

/-!
## What matching and application pass on

What a match binds are parts of its subject and runs of them.  These have none of the names if the
subject has none.
-/

/-- None of the names has a place in the atom. -/
def Clear (names : String → Prop) (atom : Atom) : Prop := atom.Lacks names names

instance (names : String → Prop) [DecidablePred names] : DecidablePred (Clear names) :=
  fun atom => inferInstanceAs (Decidable (atom.Lacks names names))

theorem clear_ofList {properties : Properties} {list : List Atom}
    (hproperties : ∀ value ∈ properties.values, value.Clear names)
    (hlist : ∀ atom ∈ list, atom.Clear names) :
    (sequence (.ofList properties list) mark).Clear names :=
  lacks_sequence.mpr ⟨hproperties,
    Sequence.forall_mem_normalize (fun _ _ h => (lacks_sequence.mp h).2) hlist⟩

theorem Clear.type {atom : Atom} (h : atom.Clear names) : atom.type.Clear names := by
  have hroot (name : String) (mark : Mark) : (root name mark).Clear names :=
    lacks_of_parts_eq_nil rfl trivial
  cases atom with
  | typeUniverse mark | root name mark => exact lacks_of_parts_eq_nil rfl trivial
  | literal value type mark => exact lacks_literal.mp h
  | var name type guard index mark => exact h.parts rfl (.type, type) (List.mem_cons_self ..)
  | application head argument bound mark =>
      have hhead := (lacks_application.mp h).1
      cases head with
      | operator op mark =>
          rcases op with ⟨name, properties, parameters, _ | type, native⟩
          · exact hroot _ _
          · exact (lacks_operator.mp hhead).2.2 type rfl
      | _ => exact hroot _ _
  | _ => exact hroot _ _

theorem Clear.run {s : Sequence Atom} (h : (sequence s mark).Clear names)
    {run : List Atom} (hrun : run.Subperm s.elements) :
    (sequence (.ofList s.properties run) .new).Clear names :=
  clear_ofList (lacks_sequence.mp h).1 fun atom hatom =>
    (lacks_sequence.mp h).2 atom (hrun.subset hatom)

theorem inherited_clear (names : String → Prop) : Inherited (Clear names) where
  type h := h.type
  lambda h := lacks_lambda.mp h
  law := by
    intro properties mark law value h hvalue
    rcases PropertySet.get_or_false_of_effective hvalue with hget | rfl
    · exact lacks_propertySet.mp h value (PropertySet.mem_values.mpr ⟨law, hget⟩)
    · exact lacks_literal.mpr (lacks_of_parts_eq_nil rfl trivial)
  sequence h := (lacks_sequence.mp h).imp_left lacks_propertySet.mpr
  application h := lacks_application.mp h
  run h hrun := h.run hrun
  applied h hrun :=
    lacks_application.mpr ((lacks_application.mp h).imp_right fun hlist => Clear.run hlist hrun)

theorem passedOn_clear (names : String → Prop) : PassedOn (Clear names) where
  element h := (lacks_sequence.mp h).2
  argument h := (lacks_application.mp h).2
  law h hlaw := (lacks_operator.mp h).2.1 _ (PropertySet.mem_values.mpr ⟨_, hlaw⟩)

/-!
## Rewriting

A value is built anew if one of its parts was changed.  What rewriting passes over shows none of
the names that are bound, or nothing is bound.
-/

end Atom

/-- The names that are still there after rewriting: those that nothing is bound to. -/
def NameMap.Spares (binds : Bindings) (names : String → Prop) (name : String) : Prop :=
  names name ∧ binds.find? name = none

namespace Atom

variable {names : String → Prop}

/-- What rewriting gives satisfies a condition, and so did what it gives back as it was. -/
def Settles {α : Type} (q : α → Prop) (old : α) (new : Rewritten α) : Prop :=
  q new.value ∧ (new.changed = false → q old)

section

variable {α : Type} {q : α → Prop}

theorem yields_same {old : α} (h : q old) : (Rewritten.same old).Yields (Settles q old) :=
  yields_value ⟨h, fun _ => h⟩

theorem yields_new {old new : α} (h : q new) :
    (value ⟨new, true⟩ : Evaluation (Rewritten α)).Yields (Settles q old) :=
  yields_value ⟨h, fun hchanged => by cases hchanged⟩

theorem yields_rebuilt {changed : Bool} {old new : α} (hnew : q new)
    (hold : changed = false → q old) :
    (if changed then pure ⟨new, true⟩ else Rewritten.same old).Yields (Settles q old) := by
  cases changed with
  | true => exact yields_new hnew
  | false => exact yields_same (hold rfl)

end

def ClearsApplied (names : String → Prop) (apply : Place → Atom → Atom → Evaluation Atom) : Prop :=
  ∀ place head argument, head.Clear names → argument.Clear names →
    (apply place head argument).Yields (Clear names)

section

variable {apply : Place → Atom → Atom → Evaluation Atom} {binds : Bindings}

theorem clear_of_isInert {atom : Atom} (h : atom.isInert binds = true)
    (hatom : atom.Lacks names (binds.Spares names)) : atom.Clear names := by
  refine hatom.of_shown ?_
  rw [isInert, Bool.or_eq_true, Bool.and_eq_true] at h
  rcases h with hempty | hconstant
  · right
    intro name hname
    refine ⟨hname, ?_⟩
    rw [NameMap.isEmpty, List.isEmpty_iff] at hempty
    rw [NameMap.find?, hempty]
    rfl
  · exact Or.inl hconstant.1

mutual

/-- Rewriting leaves none of the names that are bound, if they are not hidden from it. -/
theorem settles_rewriteWith (happly : ClearsApplied names apply)
    (hbinds : binds.All (Clear names)) : ∀ atom : Atom,
    atom.Lacks names (binds.Spares names) → ∀ place,
    (rewriteWith apply binds place atom).Yields (Settles (Clear names) atom)
  | typeUniverse mark => fun _ place => by
      rw [rewriteWith]
      exact yields_same (lacks_of_parts_eq_nil rfl trivial)
  | root name mark => fun _ place => by
      rw [rewriteWith]
      exact yields_same (lacks_of_parts_eq_nil rfl trivial)
  | literal value type mark => fun h place => by
      rw [rewriteWith]
      exact yields_same (lacks_literal.mpr (lacks_literal.mp h))
  | operator ⟨name, properties, parameters, resultType, native⟩ mark => fun h place => by
      rw [rewriteWith]
      exact yields_same (lacks_operator.mpr (lacks_operator.mp h))
  | var name type guard index mark => fun h place => by
      rw [rewriteWith]
      split
      · rename_i hinert
        exact yields_same (clear_of_isInert hinert h)
      · split
        · rename_i atom hfind
          exact yields_new (hbinds name atom hfind)
        · rename_i hfind
          split
          · rename_i hindex
            have hindex := bne_iff_ne.mp hindex
            exact yields_same ((lacks_boundVar hindex).mpr ((lacks_boundVar hindex).mp h))
          · rename_i hindex
            -- a pattern variable that nothing is bound to has none of the names
            have hindex : index = 0 := by
              simpa using hindex
            rw [hindex, lacks_freeVar] at h
            have hname : ¬names name := fun hname => h.1 ⟨hname, hfind⟩
            refine (settles_rewriteWith happly hbinds type h.2.1 _).bind fun newType htype => ?_
            refine (settles_rewriteOption happly hbinds guard h.2.2 _).bind
              fun newGuard hguard => ?_
            rw [hindex]
            refine yields_rebuilt (lacks_freeVar.mpr ⟨hname, htype.1, hguard.1⟩) ?_
            intro hchanged
            rw [Bool.or_eq_false_iff] at hchanged
            exact lacks_freeVar.mpr ⟨hname, htype.2 hchanged.1, hguard.2 hchanged.2⟩
  | lambda parameter body mark => fun h place => by
      rw [rewriteWith]
      split
      · rename_i hinert
        exact yields_same (clear_of_isInert hinert h)
      · rw [lacks_lambda] at h
        refine (settles_rewriteWith happly hbinds body h.2 _).bind fun newBody hbody => ?_
        exact yields_rebuilt (lacks_lambda.mpr ⟨h.1, hbody.1⟩) fun hchanged =>
          lacks_lambda.mpr ⟨h.1, hbody.2 hchanged⟩
  | sequence ⟨properties, elements⟩ mark => fun h place => by
      rw [rewriteWith]
      refine (settles_rewriteSequence happly hbinds ⟨properties, elements⟩
        (lacks_sequence.mp h) _).bind fun new hnew => ?_
      exact yields_rebuilt (lacks_sequence.mpr hnew.1) fun hchanged =>
        lacks_sequence.mpr (hnew.2 hchanged)
  | propertySet properties mark => fun h place => by
      rw [rewriteWith]
      refine (settles_rewriteProperties happly hbinds properties
        (lacks_propertySet.mp h) _).bind fun new hnew => ?_
      exact yields_rebuilt (lacks_propertySet.mpr hnew.1) fun hchanged =>
        lacks_propertySet.mpr (hnew.2 hchanged)
  | application head argument bound mark => fun h place => by
      rw [rewriteWith]
      split
      · rename_i hinert
        exact yields_same (clear_of_isInert hinert h)
      · rw [lacks_application] at h
        refine (settles_rewriteWith happly hbinds head h.1 _).bind fun newHead hhead => ?_
        refine (settles_rewriteWith happly hbinds argument h.2 _).bind
          fun newArgument hargument => ?_
        split
        · exact (happly _ _ _ hhead.1 hargument.1).bind fun applied happlied => yields_new happlied
        · rename_i hchanged
          rw [Bool.not_eq_true, Bool.or_eq_false_iff] at hchanged
          exact yields_same (lacks_application.mpr ⟨hhead.2 hchanged.1, hargument.2 hchanged.2⟩)

theorem settles_rewriteSequence (happly : ClearsApplied names apply)
    (hbinds : binds.All (Clear names)) : ∀ s : Sequence Atom,
    (∀ value ∈ s.properties.values, value.Lacks names (binds.Spares names)) ∧
      (∀ atom ∈ s.elements, atom.Lacks names (binds.Spares names)) → ∀ place,
    (rewriteSequence apply binds place s).Yields (Settles (fun new : Sequence Atom =>
      (∀ value ∈ new.properties.values, value.Clear names) ∧
        ∀ atom ∈ new.elements, atom.Clear names) s)
  | ⟨properties, elements⟩ => fun h place => by
      rw [rewriteSequence]
      split
      · rename_i hinert
        exact yields_same (lacks_sequence.mp (clear_of_isInert hinert (lacks_sequence.mpr h)))
      · refine (settles_rewriteProperties happly hbinds properties h.1 _).bind
          fun newProperties hproperties => ?_
        refine (settles_rewriteList happly hbinds elements h.2 _).bind
          fun newElements helements => ?_
        have hnew := @clear_ofList _ .new _ _ hproperties.1 helements.1
        refine yields_rebuilt (lacks_sequence.mp hnew) ?_
        intro hchanged
        rw [Bool.or_eq_false_iff] at hchanged
        exact ⟨hproperties.2 hchanged.1, helements.2 hchanged.2⟩

theorem settles_rewriteList (happly : ClearsApplied names apply)
    (hbinds : binds.All (Clear names)) : ∀ list : List Atom,
    (∀ atom ∈ list, atom.Lacks names (binds.Spares names)) → ∀ place,
    (rewriteList apply binds place list).Yields
      (Settles (fun list => ∀ atom ∈ list, atom.Clear names) list)
  | [] => fun _ place => by
      rw [rewriteList]
      exact yields_same (List.forall_mem_nil _)
  | atom :: rest => fun h place => by
      rw [rewriteList]
      rw [List.forall_mem_cons] at h
      refine (settles_rewriteWith happly hbinds atom h.1 _).bind fun newAtom hatom => ?_
      refine (settles_rewriteList happly hbinds rest h.2 _).bind fun newRest hrest => ?_
      refine yields_value ⟨List.forall_mem_cons.mpr ⟨hatom.1, hrest.1⟩, fun hchanged => ?_⟩
      rw [Bool.or_eq_false_iff] at hchanged
      exact List.forall_mem_cons.mpr ⟨hatom.2 hchanged.1, hrest.2 hchanged.2⟩

theorem settles_rewriteOption (happly : ClearsApplied names apply)
    (hbinds : binds.All (Clear names)) : ∀ value : Option Atom,
    (∀ atom ∈ value, atom.Lacks names (binds.Spares names)) → ∀ place,
    (rewriteOption apply binds place value).Yields
      (Settles (fun value => ∀ atom ∈ value, atom.Clear names) value)
  | none => fun _ place => by
      rw [rewriteOption]
      exact yields_same fun _ h => by cases h
  | some atom => fun h place => by
      rw [rewriteOption]
      refine (settles_rewriteWith happly hbinds atom (h atom rfl) _).bind fun newAtom hatom =>
        yields_value ⟨?_, fun hchanged => ?_⟩
      · exact fun _ h => Option.mem_some.mp h ▸ hatom.1
      · exact fun _ h => Option.mem_some.mp h ▸ hatom.2 hchanged

theorem settles_rewriteProperties (happly : ClearsApplied names apply)
    (hbinds : binds.All (Clear names)) : ∀ properties : PropertySet Atom,
    (∀ value ∈ properties.values, value.Lacks names (binds.Spares names)) → ∀ place,
    (rewriteProperties apply binds place properties).Yields
      (Settles (fun new : Properties => ∀ value ∈ new.values, value.Clear names) properties)
  | ⟨a, c, i, b, d⟩ => fun h place => by
      rw [rewriteProperties]
      split
      · rename_i hinert
        exact yields_same (lacks_propertySet.mp (clear_of_isInert hinert (lacks_propertySet.mpr h)))
      · simp only [PropertySet.values, List.forall_mem_append, Option.mem_toList] at h
        refine (settles_rewriteOption happly hbinds a h.1 _).bind fun newA ha => ?_
        refine (settles_rewriteOption happly hbinds c h.2.1 _).bind fun newC hc => ?_
        refine (settles_rewriteOption happly hbinds i h.2.2.1 _).bind fun newI hi => ?_
        refine (settles_rewriteOption happly hbinds b h.2.2.2.1 _).bind fun newB hb => ?_
        refine (settles_rewriteOption happly hbinds d h.2.2.2.2 _).bind fun newD hd => ?_
        split
        · refine yields_checked.bind fun legal hlegal => yields_new ?_
          rw [← eq_of_checked hlegal]
          simp only [PropertySet.values, List.forall_mem_append, Option.mem_toList]
          exact ⟨ha.1, hc.1, hi.1, hb.1, hd.1⟩
        · rename_i hchanged
          simp only [Bool.or_eq_true, not_or, Bool.not_eq_true] at hchanged
          refine yields_same ?_
          simp only [PropertySet.values, List.forall_mem_append, Option.mem_toList]
          exact ⟨ha.2 hchanged.1.1.1.1, hc.2 hchanged.1.1.1.2, hi.2 hchanged.1.1.2,
            hb.2 hchanged.1.2, hd.2 hchanged.2⟩

end

theorem clear_guardEvaluator (happly : ClearsApplied names apply) (place : Place)
    (hbinds : binds.All (Clear names)) {atom : Atom} (h : atom.Clear names) :
    (guardEvaluator apply place binds atom).Yields (Clear names) := by
  have hspared : atom.Lacks names (binds.Spares names) :=
    h.of_shown (Or.inr fun _ => And.left)
  exact (settles_rewriteWith happly hbinds atom hspared place).andThen fun _ hnew =>
    yields_value hnew.1

end

/-!
## Application

An operator without native evaluation gives what it declares and what it is applied to.
-/

section

variable {natives : Natives} {evaluate : GuardEvaluator}

theorem clear_applyOperator {op : Operator Atom} {mark : Mark}
    (hop : (operator op mark).Clear names) {argument : Atom} (h : argument.Clear names) :
    (op.applyWith natives evaluate argument).Yields (Clear names) := by
  have hdeclared := lacks_operator.mp hop
  refine Operator.yields_applyWith (passedOn_clear names) hop (fun hlist new hnew => ?_) h
  rcases asIs_of_dispatch hdeclared.1 new hnew with ⟨bound, rfl⟩
  exact lacks_application.mpr
    ⟨lacks_operator.mpr hdeclared, clear_ofList hdeclared.2.1 hlist⟩

theorem clearsApplied_applyWithin (natives : Natives) (nesting : Nat) :
    ClearsApplied names (applyWithin natives nesting) := by
  induction nesting with
  | zero => exact fun _ _ _ _ _ => yields_error _
  | succ nesting ih =>
      intro place head argument hhead hargument
      cases head with
      | operator op mark => exact clear_applyOperator hhead hargument
      | lambda parameter body mark =>
          exact yields_applyLambda (inherited_clear names) Lacks.of_like
            (fun _ _ hbinds hatom => clear_guardEvaluator ih (2 :: place) hbinds hatom)
            (lacks_lambda.mp hhead).2 hargument
      | _ => exact yields_value (lacks_application.mpr ⟨hhead, hargument⟩)

end

end Atom

/-!
## Complete substitution
-/

namespace Engine

open Atom

/-- If the names that are bound occur neither in the bound atoms nor in the hidden places of an
atom, then none of them is left anywhere when the atom is rewritten. -/
theorem rewrite_complete {engine : Engine} {binds : Bindings} {atom : Atom} {new : Rewritten Atom}
    (hbinds : binds.All (Clear (binds.contains · = true)))
    (hatom : atom.Lacks (binds.contains · = true) fun _ => False)
    (hnew : (engine.rewrite binds atom).result = .ok new) :
    ∀ name, binds.contains name = true → name ∉ new.value.occurringNames := by
  intro name hname
  -- rewriting spares names that are not bound
  have hshown : atom.Lacks (binds.contains · = true) (binds.Spares (binds.contains · = true)) := by
    refine hatom.of_shown (Or.inr fun name hspared => ?_)
    have hcontains : binds.contains name = true := hspared.1
    rw [NameMap.contains, hspared.2] at hcontains
    cases hcontains
  have hsettled := settles_rewriteWith (clearsApplied_applyWithin engine.natives engine.nesting)
    hbinds atom hshown engine.place new hnew
  exact Lacks.not_mem hname new.value hsettled.1

def known : Bindings :=
  (NameMap.empty.insert "x" (.boolean true)).insert "y" (.sequence ⟨.none, []⟩ .new)

theorem all_known {p : Atom → Prop} (htrue : p (.boolean true))
    (hempty : p (.sequence ⟨.none, []⟩ .new)) : known.All p :=
  (NameMap.all_empty.insert htrue).insert hempty

/-- A variable beside a lambda that is applied to it, and beside one that it types and guards. -/
def shownThrice : Atom :=
  .sequence ⟨.none, [.free "x" .any,
    .application (.lambda (.var ":1" .any none 1 .new)
      (.sequence ⟨.none, [.var ":1" .any none 1 .new, .free "x" .any]⟩ .new) .new)
      (.free "x" .any) .empty .new,
    .var "z" (.free "x" .any) (some (.free "x" .any)) 0 .new]⟩ .new

theorem rewrite_complete_shownThrice : ∃ new,
    known.All (Clear (known.contains · = true)) ∧
    (shownThrice.Lacks (known.contains · = true) fun _ => False) ∧
    (idle.rewrite known shownThrice).result = .ok new ∧
    ∀ name, known.contains name = true → name ∉ new.value.occurringNames := by
  have hbinds : known.All (Clear (known.contains · = true)) :=
    all_known (by decide) (by decide)
  have hatom : shownThrice.Lacks (known.contains · = true) fun _ => False := by decide
  have hok : (idle.rewrite known shownThrice).result.isOk = true := by decide +kernel
  cases hnew : (idle.rewrite known shownThrice).result with
  | error e =>
      rw [hnew] at hok
      cases hok
  | ok new => exact ⟨new, hbinds, hatom, rfl, rewrite_complete hbinds hatom hnew⟩

/-!
## What is left
-/

/-- A well-made atom without native evaluation in which a name is left by rewriting, though the name
stands for a closed constant. -/
structure Retains (binds : Bindings) (atom : Atom) (name : String) : Prop where
  built : atom.Built
  symbolic : atom.Everywhere Symbolic
  closed : binds.All fun value => value.isConstant = true ∧ value.occurringNames = []
  bound : binds.contains name = true
  left : ∃ new, (idle.rewrite binds atom).result = .ok new ∧ name ∈ new.value.occurringNames

theorem closed_known :
    known.All fun value => value.isConstant = true ∧ value.occurringNames = [] :=
  all_known ⟨rfl, rfl⟩ ⟨rfl, rfl⟩

theorem contains_known : known.contains "x" = true := by decide

/-- A symbol of a type that is given by a variable. -/
def typedSymbol : Atom := .literal (.symbol "s") (.free "x" .any) .new

theorem retains_typedSymbol : Retains known typedSymbol "x" where
  built := by decide
  symbolic := by decide
  closed := closed_known
  bound := contains_known
  left := ⟨_, rfl, by decide⟩

/-- A lambda that takes its argument under the condition that its body gives back. -/
def guardedCondition : Atom :=
  .lambda (.var ":1" .any (some (.free "x" .any)) 1 .new) (.free "x" .any) .new

theorem retains_guardedCondition : Retains known guardedCondition "x" where
  built := by decide
  symbolic := by decide
  closed := closed_known
  bound := contains_known
  left := ⟨_, rfl, by decide⟩

/-- A lambda that gives back its argument twice, and takes it from a type given by a variable. -/
def typedTwice : Atom :=
  .lambda (.var ":1" (.free "x" .any) none 1 .new)
    (.sequence ⟨.none, [.var ":1" (.free "x" .any) none 1 .new, .free "x" .any]⟩ .new) .new

theorem retains_typedTwice : Retains known typedTwice "x" where
  built := by decide
  symbolic := by decide
  closed := closed_known
  bound := contains_known
  left := ⟨_, rfl, by decide⟩

/-- An associative operator whose identity is a variable, applied to no arguments before long. -/
def openIdentity : Atom :=
  .application
    (.operator
      ⟨"f", ⟨some (.boolean true), none, none, none, some (.free "x" .any)⟩, [], none, none⟩ .new)
    (.free "y" .any) .empty .new

theorem retains_openIdentity : Retains known openIdentity "x" where
  built := by decide
  symbolic := by decide
  closed := closed_known
  bound := contains_known
  left := ⟨_, rfl, by decide⟩

/-- A name may be left in the type of a literal, in the parameter of a lambda and in the variables
that refer to it, and an operator may give it back. -/
theorem rewrite_not_complete : Retains known typedSymbol "x" ∧ Retains known guardedCondition "x" ∧
    Retains known typedTwice "x" ∧ Retains known openIdentity "x" :=
  ⟨retains_typedSymbol, retains_guardedCondition, retains_typedTwice, retains_openIdentity⟩

end Engine

end Equational
