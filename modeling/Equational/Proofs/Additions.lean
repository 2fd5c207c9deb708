import Equational.Proofs.Guards

/-!
# What a search adds to its bindings

The search of a pattern has the same parts to offer under all bindings, as far as
names are concerned that other patterns bind as well: it compares what is bound
with its own choice, and adds the rest.  So a search is described by parts that
do not depend on what the others have bound.  A part can be added if it binds
nothing to another atom than the bindings do, and if the guards accept what is
bound anew.
-/

namespace Equational

open Atom Matcher

/-- What a search chooses for the names that it meets. -/
abbrev Part := String → Option Atom

def Part.or (first second : Part) : Part := fun name => (first name).or (second name)

theorem Part.or_of_none {first : Part} {name : String} (h : first name = none) (second : Part) :
    first.or second name = second name := by
  rw [or, h, Option.none_or]

theorem Part.or_of_some {first : Part} {name : String} {atom : Atom} (h : first name = some atom)
    (second : Part) : first.or second name = some atom := by
  rw [or, h, Option.some_or]

def Part.single (name : String) (atom : Atom) : Part :=
  fun key => if key = name then some atom else none

theorem Part.single_self (name : String) (atom : Atom) : single name atom name = some atom :=
  if_pos rfl

theorem Part.single_eq_some {name key : String} {atom a : Atom}
    (h : single name atom key = some a) : key = name ∧ a = atom := by
  unfold single at h
  split at h
  · exact ⟨by assumption, (Option.some_inj.mp h).symm⟩
  · cases h

theorem Part.single_of_ne {name key : String} (h : key ≠ name) (atom : Atom) :
    single name atom key = none :=
  if_neg h

/-- The bindings with a part added to them; what was bound stays. -/
def NameMap.Joined (binds : Bindings) (part : Part) (found : Bindings) : Prop :=
  ∀ name, found.find? name = (binds.find? name).or (part name)

section

variable {binds found : Bindings} {part : Part} {name : String} {atom : Atom}

theorem NameMap.Joined.find?_of_some (h : binds.Joined part found)
    (hatom : binds.find? name = some atom) : found.find? name = some atom := by
  rw [h name, hatom, Option.some_or]

theorem NameMap.Joined.find?_of_none (h : binds.Joined part found)
    (hnone : binds.find? name = none) : found.find? name = part name := by
  rw [h name, hnone, Option.none_or]

theorem NameMap.joined_single (h : binds.find? name = some atom) (other : Atom) :
    binds.Joined (.single name other) binds := by
  intro key
  by_cases hkey : key = name
  · rw [hkey, h, Option.some_or]
  · rw [Part.single_of_ne hkey, Option.or_none]

theorem NameMap.joined_insert (h : binds.find? name = none) (atom : Atom) :
    binds.Joined (.single name atom) (binds.insert name atom) := by
  intro key
  by_cases hkey : key = name
  · rw [hkey, NameMap.find?_insert_self, h, Option.none_or, Part.single_self]
  · rw [NameMap.find?_insert_of_ne _ _ hkey, Part.single_of_ne hkey, Option.or_none]

end

/-- What a pattern stands in: the bindings at the start, the names of its own variables, those of
the variables of other patterns, and the atoms that its guards accept for names of both kinds. -/
structure Frame where
  start : Bindings
  own : String → Prop
  outer : String → Prop
  accepted : String → Atom → Prop

namespace Frame

variable {frame after : Frame} {binds other found middle : Bindings} {part first second : Part}

/-- Bindings that may be reached within the frame. -/
structure Reaches (frame : Frame) (binds : Bindings) : Prop where
  keeps : frame.start.Extends binds
  gains : frame.start.Gains (fun name => frame.own name ∨ frame.outer name) binds

/-- A part can be added to the bindings. -/
structure Admits (frame : Frame) (binds : Bindings) (part : Part) : Prop where
  fits : ∀ name a b, binds.find? name = some a → part name = some b → (a == b) = true
  accepted : ∀ name atom, frame.outer name → binds.find? name = none → part name = some atom →
    frame.accepted name atom

theorem admits_single {name : String} {atom : Atom}
    (hfits : ∀ a, binds.find? name = some a → (a == atom) = true)
    (haccepted : frame.outer name → binds.find? name = none → frame.accepted name atom) :
    frame.Admits binds (.single name atom) where
  fits key a b ha hb := by
    rcases Part.single_eq_some hb with ⟨rfl, rfl⟩
    exact hfits a ha
  accepted key a houter hnone ha := by
    rcases Part.single_eq_some ha with ⟨rfl, rfl⟩
    exact haccepted houter hnone

theorem Reaches.joined (h : frame.Reaches binds)
    (hown : ∀ name atom, part name = some atom → frame.own name ∨ frame.outer name)
    (hjoined : binds.Joined part found) : frame.Reaches found where
  keeps name atom hatom := hjoined.find?_of_some (h.keeps name atom hatom)
  gains name hname := by
    rw [NameMap.contains] at hname
    cases hfind : binds.find? name with
    | some atom => exact h.gains name (by rw [NameMap.contains, hfind]; rfl)
    | none =>
        rw [hjoined.find?_of_none hfind] at hname
        rcases Option.isSome_iff_exists.mp hname with ⟨atom, hatom⟩
        exact Or.inr (hown name atom hatom)

/-- What is found under any bindings is described by parts.  These depend on the bindings for names
that are not those of other patterns, and they bind own names to atoms of a kind. -/
structure Adds (frame : Frame) (p : Atom → Prop) (parts : Bindings → Part → Prop)
    (search : Bindings → List Bindings) : Prop where
  depends {binds other : Bindings} {part : Part} : frame.Reaches binds → frame.Reaches other →
    (∀ name, ¬frame.outer name → other.find? name = binds.find? name) →
      parts binds part → parts other part
  own {binds : Bindings} {part : Part} {name : String} {atom : Atom} :
    parts binds part → part name = some atom → frame.own name ∧ p atom
  sound {binds found : Bindings} : frame.Reaches binds → found ∈ search binds →
    ∃ part, parts binds part ∧ frame.Admits binds part ∧ binds.Joined part found
  complete {binds : Bindings} {part : Part} : frame.Reaches binds → parts binds part →
    frame.Admits binds part → ∃ found ∈ search binds, binds.Joined part found

variable {p : Atom → Prop} {parts others : Bindings → Part → Prop}
  {search next : Bindings → List Bindings}

theorem Adds.parts_iff (h : frame.Adds p parts search) (hbinds : frame.Reaches binds)
    (hfound : frame.Reaches found) (hjoined : binds.Joined part found)
    (houter : ∀ name atom, part name = some atom → frame.outer name) {own : Part} :
    parts binds own ↔ parts found own := by
  have hsame : ∀ name, ¬frame.outer name → found.find? name = binds.find? name := by
    intro name hname
    have hnone : part name = none := by
      by_contra hsome
      rcases Option.ne_none_iff_exists'.mp hsome with ⟨atom, hatom⟩
      exact hname (houter name atom hatom)
    rw [hjoined name, hnone, Option.or_none]
  exact ⟨h.depends hbinds hfound hsame,
    h.depends hfound hbinds fun name hname => (hsame name hname).symm⟩

theorem Adds.reaches (h : frame.Adds p parts search) (hbinds : frame.Reaches binds)
    (hpart : parts binds part) (hjoined : binds.Joined part found) : frame.Reaches found :=
  hbinds.joined (fun _ _ hatom => Or.inl (h.own hpart hatom).1) hjoined

/-!
## Ways of putting searches together

Of several searches each adds its own parts, and to go on with what was found adds the parts of
both.  Two parts that are added one after the other agree on the names that they have in common.
-/

theorem adds_found :
    frame.Adds p (fun _ part => ∀ name, part name = none) fun binds => [binds] where
  depends _ _ _ hpart := hpart
  own hpart hatom := by
    rw [hpart] at hatom
    cases hatom
  sound := by
    intro binds found _ hfound
    have hadmits : frame.Admits binds fun _ => none :=
      ⟨fun _ _ _ _ hnone => (by cases hnone), fun _ _ _ _ hnone => (by cases hnone)⟩
    refine ⟨fun _ => none, fun _ => rfl, hadmits, fun name => ?_⟩
    rw [List.mem_singleton.mp hfound, Option.or_none]
  complete := by
    intro binds part _ hpart _
    refine ⟨binds, List.mem_singleton.mpr rfl, fun name => ?_⟩
    rw [hpart name, Option.or_none]

theorem adds_failed : frame.Adds p (fun _ _ => False) fun _ => [] where
  depends _ _ _ hpart := hpart
  own hpart := hpart.elim
  sound _ hfound := by cases hfound
  complete _ hpart := hpart.elim

theorem adds_flatMap {α : Type} {list : List α} {f : α → Bindings → List Bindings}
    {parts : α → Bindings → Part → Prop} (h : ∀ a ∈ list, frame.Adds p (parts a) (f a)) :
    frame.Adds p (fun binds part => ∃ a ∈ list, parts a binds part)
      fun binds => list.flatMap fun a => f a binds where
  depends := by
    rintro binds other part hbinds hother hsame ⟨a, ha, hpart⟩
    exact ⟨a, ha, (h a ha).depends hbinds hother hsame hpart⟩
  own := by
    rintro binds part name atom ⟨a, ha, hpart⟩ hatom
    exact (h a ha).own hpart hatom
  sound := by
    intro binds found hbinds hfound
    rcases List.mem_flatMap.mp hfound with ⟨a, ha, hfound⟩
    rcases (h a ha).sound hbinds hfound with ⟨part, hpart, hrest⟩
    exact ⟨part, ⟨a, ha, hpart⟩, hrest⟩
  complete := by
    rintro binds part hbinds ⟨a, ha, hpart⟩ hadmits
    rcases (h a ha).complete hbinds hpart hadmits with ⟨found, hfound, hjoined⟩
    exact ⟨found, List.mem_flatMap.mpr ⟨a, ha, hfound⟩, hjoined⟩

theorem Admits.agree (hfirst : frame.Admits binds first) (hjoined : binds.Joined first middle)
    (hsecond : after.Admits middle second) {name : String} {a b : Atom} (ha : first name = some a)
    (hb : second name = some b) : (a == b) = true := by
  cases hfind : binds.find? name with
  | none => exact hsecond.fits name a b ((hjoined.find?_of_none hfind).trans ha) hb
  | some c =>
      exact beq_trans (beq_symm (hfirst.fits name c a hfind ha))
        (hsecond.fits name c b (hjoined.find?_of_some hfind) hb)

theorem Admits.or (hfirst : frame.Admits binds first) (hjoined : binds.Joined first middle)
    (hsecond : frame.Admits middle second) : frame.Admits binds (first.or second) where
  fits name a b ha hb := by
    cases hfind : first name with
    | none =>
        rw [Part.or_of_none hfind] at hb
        exact hsecond.fits name a b (hjoined.find?_of_some ha) hb
    | some c =>
        rw [Part.or_of_some hfind] at hb
        exact hfirst.fits name a b ha (hfind.trans hb)
  accepted name atom houter hnone hatom := by
    cases hfind : first name with
    | none =>
        rw [Part.or_of_none hfind] at hatom
        exact hsecond.accepted name atom houter ((hjoined.find?_of_none hnone).trans hfind) hatom
    | some c =>
        rw [Part.or_of_some hfind] at hatom
        exact hfirst.accepted name atom houter hnone (hfind.trans hatom)

theorem Admits.of_or
    (hagree : ∀ name a b, first name = some a → second name = some b → (a == b) = true)
    (h : frame.Admits binds (first.or second)) :
    frame.Admits binds first ∧
      ∀ middle, binds.Joined first middle → frame.Admits middle second := by
  refine ⟨⟨fun name a b ha hb => h.fits name a b ha (Part.or_of_some hb second),
    fun name atom houter hnone hatom =>
      h.accepted name atom houter hnone (Part.or_of_some hatom second)⟩, ?_⟩
  intro middle hjoined
  refine ⟨?_, ?_⟩
  · intro name a b ha hb
    rw [hjoined name] at ha
    cases hbinds : binds.find? name with
    | none =>
        rw [hbinds, Option.none_or] at ha
        exact hagree name a b ha hb
    | some c =>
        rw [hbinds, Option.some_or, Option.some_inj] at ha
        subst ha
        cases hfirst : first name with
        | none => exact h.fits name c b hbinds ((Part.or_of_none hfirst second).trans hb)
        | some d =>
            exact beq_trans (h.fits name c d hbinds (Part.or_of_some hfirst second))
              (hagree name d b hfirst hb)
  · intro name atom houter hnone hatom
    rw [hjoined name, Option.or_eq_none_iff] at hnone
    exact h.accepted name atom houter hnone.1 ((Part.or_of_none hnone.2 second).trans hatom)

theorem joined_or (hfirst : binds.Joined first middle) :
    middle.Joined second found ↔ binds.Joined (first.or second) found := by
  refine forall_congr' fun name => ?_
  rw [hfirst name, Option.or_assoc, Part.or]

/-- To go on with what was found adds the parts of both searches, where these are equal for names
of both. -/
theorem Adds.continued (h : frame.Adds p parts search) (hnext : frame.Adds p others next) :
    frame.Adds p (fun binds part => ∃ first second middle, parts binds first ∧
        frame.Reaches middle ∧
        (∀ name, ¬frame.outer name → middle.find? name = (binds.find? name).or (first name)) ∧
        others middle second ∧
        (∀ name a b, first name = some a → second name = some b → (a == b) = true) ∧
        part = first.or second)
      fun binds => (search binds).flatMap next where
  depends := by
    rintro binds other part hbinds hother hsame
      ⟨first, second, middle, hfirst, hmiddle, hjoined, hsecond, hagree, rfl⟩
    refine ⟨first, second, middle, h.depends hbinds hother hsame hfirst, hmiddle, ?_, hsecond,
      hagree, rfl⟩
    intro name hname
    rw [hsame name hname]
    exact hjoined name hname
  own := by
    rintro binds part name atom ⟨first, second, middle, hfirst, -, -, hsecond, -, rfl⟩ hatom
    cases hname : first name with
    | none =>
        rw [Part.or_of_none hname] at hatom
        exact hnext.own hsecond hatom
    | some c =>
        rw [Part.or_of_some hname] at hatom
        exact h.own hfirst (hname.trans hatom)
  sound := by
    intro binds found hbinds hfound
    rcases List.mem_flatMap.mp hfound with ⟨middle, hmiddle, hfound⟩
    rcases h.sound hbinds hmiddle with ⟨first, hfirst, hadmits, hjoined⟩
    have hreaches := h.reaches hbinds hfirst hjoined
    rcases hnext.sound hreaches hfound with ⟨second, hsecond, hadmitsNext, hjoinedNext⟩
    exact ⟨_, ⟨first, second, middle, hfirst, hreaches, fun name _ => hjoined name, hsecond,
      fun _ _ _ => hadmits.agree hjoined hadmitsNext, rfl⟩, hadmits.or hjoined hadmitsNext,
      (joined_or hjoined).mp hjoinedNext⟩
  complete := by
    rintro binds part hbinds
      ⟨first, second, middle, hfirst, hmiddle, hsame, hsecond, hagree, rfl⟩ hadmits
    have hboth := Admits.of_or hagree hadmits
    rcases h.complete hbinds hfirst hboth.1 with ⟨found, hfound, hjoined⟩
    have hreaches := h.reaches hbinds hfirst hjoined
    have hothers := hnext.depends hmiddle hreaches
      (fun name hname => (hjoined name).trans (hsame name hname).symm) hsecond
    rcases hnext.complete hreaches hothers (hboth.2 found hjoined) with ⟨last, hlast, hjoinedLast⟩
    exact ⟨last, List.mem_flatMap.mpr ⟨found, hfound, hlast⟩, (joined_or hjoined).mp hjoinedLast⟩

/-!
## Pattern variables

A variable adds its subject under its name, if its guard accepts it where it is looked at.
-/

/-- Whether the guard of a variable accepts an atom depends on the names that are not those of other
patterns, or on the name alone if that is one of another pattern as well. -/
structure Settles (frame : Frame) (evaluate : GuardEvaluator) (p : Atom → Prop) (name : String)
    (guard : Option Atom) : Prop where
  own : frame.own name
  alone : ¬frame.outer name → ∀ binds other subject, frame.Reaches binds → frame.Reaches other →
    (∀ key, ¬frame.outer key → other.find? key = binds.find? key) → binds.find? name = none →
      evaluate.Accepts (binds.insert name subject) guard →
        evaluate.Accepts (other.insert name subject) guard
  shared : frame.outer name → ∀ binds subject, frame.Reaches binds → binds.find? name = none →
    p subject → (evaluate.Accepts (binds.insert name subject) guard ↔ frame.accepted name subject)

theorem adds_bind {evaluate : GuardEvaluator} {pattern subject : Atom} {name : String}
    {guard : Option Atom} (h : frame.Settles evaluate p name guard) (hsubject : p subject) :
    frame.Adds p (fun binds part => part = .single name subject ∧ (¬frame.outer name →
        binds.find? name = none → evaluate.Accepts (binds.insert name subject) guard))
      fun binds => (bind evaluate pattern name guard subject binds).alternatives where
  depends := by
    rintro binds other part hbinds hother hsame ⟨hpart, haccepts⟩
    refine ⟨hpart, fun hname hnone => ?_⟩
    rw [hsame name hname] at hnone
    exact h.alone hname binds other subject hbinds hother hsame hnone (haccepts hname hnone)
  own := by
    rintro binds part key atom ⟨rfl, -⟩ hatom
    rcases Part.single_eq_some hatom with ⟨rfl, rfl⟩
    exact ⟨h.own, hsubject⟩
  sound := by
    intro binds found hbinds hfound
    rcases mem_bind_iff.mp hfound with ⟨existing, hfind, hsame, rfl⟩ | ⟨hnone, rfl, haccepts⟩
    · have hbound : found.find? name ≠ none := by
        rw [hfind]
        exact Option.some_ne_none existing
      refine ⟨.single name subject, ⟨rfl, fun _ hnone => absurd hnone hbound⟩,
        admits_single (fun a ha => ?_) fun _ hnone => absurd hnone hbound,
        NameMap.joined_single hfind subject⟩
      rw [hfind, Option.some_inj] at ha
      rwa [← ha]
    · refine ⟨.single name subject, ⟨rfl, fun _ _ => haccepts⟩,
        admits_single (fun a ha => ?_) fun houter _ =>
          (h.shared houter binds subject hbinds hnone hsubject).mp haccepts,
        NameMap.joined_insert hnone subject⟩
      rw [hnone] at ha
      cases ha
  complete := by
    rintro binds part hbinds ⟨rfl, haccepts⟩ hadmits
    cases hfind : binds.find? name with
    | some existing =>
        have hsame := hadmits.fits name existing subject hfind (Part.single_self name subject)
        exact ⟨binds, mem_bind_iff.mpr (.inl ⟨existing, hfind, hsame, rfl⟩),
          NameMap.joined_single hfind subject⟩
    | none =>
        have hguard : evaluate.Accepts (binds.insert name subject) guard := by
          by_cases houter : frame.outer name
          · exact (h.shared houter binds subject hbinds hfind hsubject).mpr
              (hadmits.accepted name subject houter hfind (Part.single_self name subject))
          · exact haccepts houter hfind
        exact ⟨_, mem_bind_iff.mpr (.inr ⟨hfind, rfl, hguard⟩), NameMap.joined_insert hfind subject⟩

/-!
## Patterns

Descriptions are put together as searches are, so the search of a pattern is described as soon as
its variables are.
-/

def Describes (frame : Frame) (p : Atom → Prop) (search : Search) : Prop :=
  ∃ parts, frame.Adds p parts fun binds => (search binds).alternatives

theorem closed_describes (hinherited : Inherited p) :
    Search.Closed p (frame.Describes p) fun alternatives =>
      ∃ parts, frame.Adds p parts fun binds => (alternatives binds).bindings where
  inherited := hinherited
  found := ⟨_, adds_found⟩
  failed _ := ⟨_, adds_failed⟩
  watched hsearch := hsearch
  mapFailure f := by
    rintro ⟨parts, hadds⟩
    refine ⟨parts, ?_⟩
    simp only [Traced.alternatives_mapFailure]
    exact hadds
  continued := by
    rintro search next ⟨parts, hadds⟩ ⟨others, hnext⟩
    simp only [Describes, Traced.alternatives_continued]
    exact ⟨_, hadds.continued hnext⟩
  noticed _ hsearch := hsearch
  firstOf onEmpty := by
    rintro ⟨parts, hadds⟩
    refine ⟨parts, ?_⟩
    simp only [Outcome.alternatives_firstOf]
    exact hadds
  all notice := by
    rintro ⟨parts, hadds⟩
    refine ⟨parts, ?_⟩
    simp only [Stream.bindings_noticed, Traced.bindings_stream]
    exact hadds
  flatMap := by
    intro α list f h
    have hall : ∀ a, ∃ parts, a ∈ list.toList →
        frame.Adds p parts fun binds => (f a binds).bindings := by
      intro a
      by_cases ha : a ∈ list.toList
      · exact (h a ha).imp fun _ hadds _ => hadds
      · exact ⟨fun _ _ => False, fun hmem => absurd hmem ha⟩
    choose parts hparts using hall
    simp only [Stream.bindings_flatMap]
    exact ⟨_, adds_flatMap hparts⟩

/-- The search of a pattern is described by parts if the guards of its variables are settled, and no
variable meets itself. -/
theorem describes_search {evaluate : GuardEvaluator} (hinherited : Inherited p) (pattern : Atom)
    (hsettles : ∀ name guard, (name, guard) ∈ pattern.patternVariables →
      frame.Settles evaluate p name guard)
    (hself : ∀ v, pattern.Meets v → ∀ subject, p subject → (v == subject) = false) :
    (Atom.search evaluate pattern).Holds p (frame.Describes p) := by
  refine holds_search_of_meets (closed_describes hinherited) pattern ?_
  intro v hv name type guard mark heq matcher hmatcher subject hsubject
  change frame.Describes p fun binds => ofFree evaluate v name guard matcher subject binds
  unfold ofFree
  simp only [hself v hv subject hsubject, Bool.false_eq_true, if_false]
  exact (closed_describes hinherited).continued
    ((closed_describes hinherited).mapFailure _ (hmatcher _ (hinherited.type hsubject)))
    ⟨_, adds_bind (hsettles name guard (hv.mem_patternVariables heq)) hsubject⟩

/-!
## Two searches in either order

Two parts that can be added in one order can be added in the other one: the part that came second
did not need the first one, and the guards of the first see none of its names.
-/

/-- Names are bound to the same atoms, or to equal ones of a kind. -/
def Matches (p : Atom → Prop) (found other : Bindings) : Prop :=
  ∀ name, found.find? name = other.find? name ∨ ∃ a b, p a ∧ p b ∧ (a == b) = true ∧
    found.find? name = some a ∧ other.find? name = some b

theorem matches_or {found other : Bindings}
    (hfirst : ∀ name atom, first name = some atom → p atom)
    (hsecond : ∀ name atom, second name = some atom → p atom)
    (hagree : ∀ name a b, first name = some a → second name = some b → (a == b) = true)
    (hfound : binds.Joined (first.or second) found)
    (hother : binds.Joined (second.or first) other) : Matches p found other := by
  intro name
  rw [hfound name, hother name]
  cases binds.find? name with
  | some atom => exact Or.inl rfl
  | none =>
      rw [Option.none_or, Option.none_or]
      cases ha : first name with
      | none =>
          refine Or.inl ?_
          rw [Part.or_of_none ha, Part.or, ha, Option.or_none]
      | some a =>
          rw [Part.or_of_some ha]
          cases hb : second name with
          | none =>
              refine Or.inl ?_
              rw [Part.or_of_none hb, ha]
          | some b =>
              rw [Part.or_of_some hb]
              exact Or.inr ⟨a, b, hfirst name a ha, hsecond name b hb, hagree name a b ha hb, rfl,
                rfl⟩

/-- A part that could be added second can be added first, if what a guard of the part before accepts
for a common name is accepted as well. -/
theorem Admits.swapped_second (hadmits : frame.Admits binds first)
    (hjoined : binds.Joined first middle) (hnext : after.Admits middle second)
    (hinner : ∀ name atom, second name = some atom → frame.outer name)
    (hcommon : ∀ name a b, first name = some a → second name = some b →
      binds.find? name = none → (a == b) = true → frame.accepted name a → after.accepted name b) :
    after.Admits binds second where
  fits name a b ha := hnext.fits name a b (hjoined.find?_of_some ha)
  accepted name b houter hnone hb := by
    cases ha : first name with
    | none => exact hnext.accepted name b houter ((hjoined.find?_of_none hnone).trans ha) hb
    | some a =>
        exact hcommon name a b ha hb hnone (hadmits.agree hjoined hnext ha hb)
          (hadmits.accepted name a (hinner name b hb) hnone ha)

theorem Admits.swapped_first (hadmits : frame.Admits binds first)
    (hjoined : binds.Joined second middle)
    (hagree : ∀ name a b, first name = some a → second name = some b → (a == b) = true) :
    frame.Admits middle first where
  fits name a b ha hb := by
    cases hfind : binds.find? name with
    | none => exact beq_symm (hagree name b a hb ((hjoined.find?_of_none hfind).symm.trans ha))
    | some c =>
        rw [hjoined.find?_of_some hfind] at ha
        exact hadmits.fits name a b (hfind.trans ha) hb
  accepted name atom houter hnone hatom := by
    rw [hjoined name, Option.or_eq_none_iff] at hnone
    exact hadmits.accepted name atom houter hnone.1 hatom

/-- Two searches, each among others whose names contain those of the other one, find the same in
either order, if what one guard accepts for a common name the other one accepts as well. -/
theorem exists_swapped (hsearch : frame.Adds p parts search)
    (hnext : after.Adds p others next) (houter : ∀ name, frame.own name → after.outer name)
    (hinner : ∀ name, after.own name → frame.outer name)
    (hcommon : ∀ name a b, frame.own name → after.own name → binds.find? name = none → p a → p b →
      (a == b) = true → frame.accepted name a → after.accepted name b)
    (hbinds : frame.Reaches binds) (hbinds' : after.Reaches binds) {middle found : Bindings}
    (hmiddle : middle ∈ search binds) (hfound : found ∈ next middle) :
    ∃ middle' ∈ next binds, ∃ found' ∈ search middle', Matches p found found' := by
  rcases hsearch.sound hbinds hmiddle with ⟨first, hfirst, hadmits, hjoined⟩
  have hfirstOwn : ∀ name atom, first name = some atom → frame.own name ∧ p atom :=
    fun _ _ => hsearch.own hfirst
  have hfirstOuter : ∀ name atom, first name = some atom → after.outer name :=
    fun name atom hatom => houter name (hfirstOwn name atom hatom).1
  have hreaches : after.Reaches middle :=
    hbinds'.joined (fun name atom hatom => .inr (hfirstOuter name atom hatom)) hjoined
  rcases hnext.sound hreaches hfound with ⟨second, hsecond, hadmitsNext, hjoinedNext⟩
  have hsecondOwn : ∀ name atom, second name = some atom → after.own name ∧ p atom :=
    fun _ _ => hnext.own hsecond
  have hsecondOuter : ∀ name atom, second name = some atom → frame.outer name :=
    fun name atom hatom => hinner name (hsecondOwn name atom hatom).1
  have hagree : ∀ name a b, first name = some a → second name = some b → (a == b) = true :=
    fun _ _ _ => hadmits.agree hjoined hadmitsNext
  -- neither part depends on the names that the other one binds
  have hsecondBinds : others binds second :=
    (hnext.parts_iff hbinds' hreaches hjoined hfirstOuter).mpr hsecond
  have hadmitsSecond : after.Admits binds second :=
    hadmits.swapped_second hjoined hadmitsNext hsecondOuter fun name a b ha hb hnone =>
      hcommon name a b (hfirstOwn name a ha).1 (hsecondOwn name b hb).1 hnone
        (hfirstOwn name a ha).2 (hsecondOwn name b hb).2
  rcases hnext.complete hbinds' hsecondBinds hadmitsSecond with ⟨middle', hmiddle', hjoined'⟩
  have hreaches' : frame.Reaches middle' :=
    hbinds.joined (fun name atom hatom => .inr (hsecondOuter name atom hatom)) hjoined'
  rcases hsearch.complete hreaches'
    ((hsearch.parts_iff hbinds hreaches' hjoined' hsecondOuter).mp hfirst)
    (hadmits.swapped_first hjoined' hagree) with ⟨found', hfound', hjoinedFirst⟩
  exact ⟨middle', hmiddle', found', hfound', matches_or
    (fun name atom hatom => (hfirstOwn name atom hatom).2)
    (fun name atom hatom => (hsecondOwn name atom hatom).2) hagree
    ((joined_or hjoined).mp hjoinedNext) ((joined_or hjoined').mp hjoinedFirst)⟩

end Frame

end Equational
