import Equational.Proofs.BareMatching
import Equational.Proofs.Listings
import Equational.Proofs.PlainMatching
import Equational.Proofs.Traces

/-!
# Atoms match themselves

Every atom, taken as a pattern, accepts itself as the subject, and binds nothing
by it.  What is found first is followed through all ways of matching: elimination
takes a constant away at the same positions on both sides, the first order of what
is left is the order that it has, and a pattern variable that meets itself stays
unbound.
-/

namespace Equational

/-!
## Searches that begin with no bindings
-/

namespace Traced

def BeginsEmpty (outcome : Traced Outcome) : Prop := outcome.alternatives.head? = some .empty

theorem beginsEmpty_found : (of (.found .empty)).BeginsEmpty := rfl

theorem BeginsEmpty.mapFailure {outcome : Traced Outcome} (h : outcome.BeginsEmpty)
    (f : Failure → Failure) : (outcome.mapFailure f).BeginsEmpty := by
  rw [BeginsEmpty, alternatives_mapFailure]
  exact h

theorem BeginsEmpty.continued {outcome : Traced Outcome} (h : outcome.BeginsEmpty)
    {next : Bindings → Traced Outcome} (hnext : (next .empty).BeginsEmpty) :
    (outcome.continued next).BeginsEmpty := by
  unfold BeginsEmpty at h hnext ⊢
  rw [alternatives_continued]
  cases hfound : outcome.alternatives with
  | nil =>
      rw [hfound] at h
      cases h
  | cons binds rest =>
      rw [hfound, List.head?_cons, Option.some_inj] at h
      rw [List.flatMap_cons, List.head?_append, h, hnext]
      rfl

end Traced

open Traced

theorem Matcher.beginsEmpty_watched {pattern subject : Atom} {search : Matcher}
    (h : (search subject .empty).BeginsEmpty) :
    (watched pattern search subject .empty).BeginsEmpty := by
  rw [BeginsEmpty, alternatives_watched]
  exact h

theorem Matcher.beginsEmpty_anyType (subject : Atom) : (anyType subject .empty).BeginsEmpty :=
  beginsEmpty_watched beginsEmpty_found

namespace Element

/-- Met with its own pattern, the element binds nothing. -/
def MatchesItself (element : Element) : Prop :=
  (element.matcher element.pattern .empty).BeginsEmpty

theorem matchAll_self {elements : List Element} (h : ∀ element ∈ elements, element.MatchesItself) :
    (matchAll elements (elements.map (·.pattern)) .empty).BeginsEmpty := by
  induction elements with
  | nil => exact beginsEmpty_found
  | cons element rest ih =>
      have hparts := List.forall_mem_cons.mp h
      have hall := BeginsEmpty.continued hparts.1 (ih hparts.2)
      rw [BeginsEmpty, alternatives_continued] at hall
      rw [BeginsEmpty, List.map_cons, alternatives_matchAll_cons]
      exact hall

end Element

/-!
## Elimination of a list against itself

Every position that holds an atom is paired with itself, so what is left of the subjects is what
is left of the patterns.
-/

namespace Elimination

theorem pair_self {list : List Atom} {positions : List Nat} {taken : Taken}
    (hpositions : ∀ p ∈ positions, ∃ atom, list[p]? = some atom)
    (htaken : taken.patterns = taken.subjects) :
    ∃ final, pair list list positions positions taken = .ok final ∧
      final.patterns = final.subjects := by
  induction positions generalizing taken with
  | nil => exact ⟨taken, rfl, htaken⟩
  | cons p ps ih =>
      rcases hpositions p List.mem_cons_self with ⟨atom, hatom⟩
      have hstays : (p :: ps).dropWhile (fun s => !(list[s]?.any (· == atom))) = p :: ps := by
        rw [List.dropWhile_cons_of_neg]
        simp [hatom, Atom.beq_refl]
      unfold pair
      simp only [hatom, hstays]
      exact ih (fun q hq => hpositions q (List.mem_cons_of_mem _ hq))
        (congrArg (p :: ·) htaken)

theorem pairAll_self {list : List Atom} {entries : Sequence.Pool} {taken : Taken}
    (hentries : ∀ entry ∈ entries, entry ∈ Sequence.constantPool list)
    (htaken : taken.patterns = taken.subjects) :
    ∃ final, pairAll list list (Sequence.constantPool list) entries taken = .ok final ∧
      final.patterns = final.subjects := by
  induction entries generalizing taken with
  | nil => exact ⟨taken, rfl, htaken⟩
  | cons entry rest ih =>
      rcases entry with ⟨digest, positions⟩
      have hmem := hentries (digest, positions) List.mem_cons_self
      have hvalid : ∀ p ∈ positions, ∃ atom, list[p]? = some atom := by
        intro p hp
        rw [Sequence.eq_constantsAt_of_mem hmem] at hp
        rcases mem_constantsAt.mp hp with ⟨atom, hatom, -⟩
        exact ⟨atom, hatom⟩
      rcases pair_self hvalid htaken with ⟨middle, hmiddle, hsame⟩
      unfold pairAll
      simp only [Sequence.lookup_of_mem (Sequence.ascending_constantPool list) hmem,
        Option.getD_some, hmiddle]
      exact ih (fun other hother => hentries other (List.mem_cons_of_mem _ hother)) hsame

theorem remaining_map {α β : Type} (f : α → β) (taken : List Nat) (list : List α) :
    remaining taken (list.map f) = (remaining taken list).map f := by
  have hgraph : List.Forall₂ (fun b a => b = f a) (list.map f) list :=
    List.forall₂_map_left_iff.mpr (List.forall₂_same.mpr fun _ _ => rfl)
  have hleft := forall₂_remaining hgraph taken
  rw [← List.forall₂_map_right_iff, List.forall₂_eq_eq_eq] at hleft
  exact hleft

end Elimination

namespace Sequence

variable {elements : List Element} (properties : Properties)

theorem eliminateConstants_self (elements : List Element) : ∃ left : List Element,
    (∀ element ∈ left, element ∈ elements) ∧
      (eliminateConstants elements ⟨properties, elements.map (·.pattern)⟩).value =
        .ok (left, left.map (·.pattern)) := by
  rcases @Elimination.pairAll_self (elements.map (·.pattern)) _ ⟨[], []⟩ (fun _ h => h) rfl with
    ⟨taken, htaken, hsame⟩
  refine ⟨Elimination.remaining taken.patterns elements,
    fun element => mem_of_mem_remaining, ?_⟩
  unfold eliminateConstants
  simp only [htaken, Traced.of]
  rw [← hsame, Elimination.remaining_map]

theorem matchOrders_self (h : ∀ element ∈ elements, element.MatchesItself) :
    (Element.matchOrders elements (elements.map (·.pattern)) .empty).bindings.head? =
      some .empty := by
  have hall := Element.matchAll_self h
  rw [Element.bindings_matchOrders]
  have hhead := Permutation.head?_ofSize (elements.map (·.pattern)).length
  cases horders : (Permutation.ofSize (elements.map (·.pattern)).length).toList with
  | nil =>
      rw [horders] at hhead
      cases hhead
  | cons order rest =>
      rw [horders, List.head?_cons, Option.some_inj] at hhead
      rw [List.flatMap_cons, List.head?_append, hhead,
        Element.arrange_eq_of_forall₂ (Element.forall₂_range _), hall]
      rfl

theorem matchCommutative_self (h : ∀ element ∈ elements, element.MatchesItself) :
    (matchCommutative elements ⟨properties, elements.map (·.pattern)⟩ .empty).BeginsEmpty := by
  rcases eliminateConstants_self properties elements with ⟨left, hleft, hvalue⟩
  have hlength : elements.length = Sequence.length ⟨properties, elements.map (·.pattern)⟩ :=
    (List.length_map _).symm
  rw [matchCommutative, if_pos hlength, BeginsEmpty, alternatives_andThen, hvalue]
  simp only [Outcome.alternatives_firstOf]
  exact matchOrders_self fun element hmem => h element (hleft element hmem)

theorem matchElements_self (wrapper : Wrapper) (h : ∀ element ∈ elements, element.MatchesItself) :
    (matchElements wrapper elements ⟨properties, elements.map (·.pattern)⟩ .empty).BeginsEmpty := by
  have hlength : elements.length = Sequence.length ⟨properties, elements.map (·.pattern)⟩ :=
    (List.length_map _).symm
  unfold matchElements
  simp only [if_pos hlength]
  split
  · exact matchCommutative_self properties h
  · exact Element.matchAll_self h

end Sequence

/-!
## Laws
-/

namespace PropertySet

theorem effectives_self {properties : Properties} {evaluate : GuardEvaluator}
    {entries : List (Law × Element)}
    (h : ∀ entry ∈ entries, (Atom.lawElements evaluate properties).get entry.1 = some entry.2) :
    effectives properties entries = .ok ((entries.map (·.2)).map (·.pattern)) := by
  induction entries with
  | nil => rfl
  | cons entry rest ih =>
      have hparts := List.forall_mem_cons.mp h
      have hget := hparts.1
      rw [get_lawElements] at hget
      rcases Option.map_eq_some_iff.mp hget with ⟨value, hvalue, helement⟩
      have heffective : effective? properties entry.1 = some entry.2.pattern := by
        rw [← helement]
        simp only [effective?, hvalue, Atom.element]
      simp only [effectives, heffective, ih hparts.2]
      rfl

theorem matchLaws_self {properties : Properties} {evaluate : GuardEvaluator}
    (h : ∀ law element, (Atom.lawElements evaluate properties).get law = some element →
      element.MatchesItself) :
    ((Atom.lawElements evaluate properties).matchLaws properties .empty).BeginsEmpty := by
  have hentries : ∀ entry ∈ (Atom.lawElements evaluate properties).specified,
      (Atom.lawElements evaluate properties).get entry.1 = some entry.2 := by
    intro entry hentry
    rcases List.mem_filterMap.mp hentry with ⟨law, -, hlaw⟩
    rcases Option.map_eq_some_iff.mp hlaw with ⟨element, hget, rfl⟩
    exact hget
  unfold matchLaws
  simp only [effectives_self hentries]
  apply Element.matchAll_self
  intro element hmem
  rcases List.mem_map.mp hmem with ⟨entry, hentry, rfl⟩
  exact h entry.1 entry.2 (hentries entry hentry)

end PropertySet

theorem Sequence.matchUnder_self {evaluate : GuardEvaluator} (wrapper : Wrapper)
    (s : Sequence Atom)
    (hlaws : ∀ law element, (Atom.lawElements evaluate s.properties).get law = some element →
      element.MatchesItself)
    (helements : ∀ element ∈ Atom.listElements evaluate s.elements, element.MatchesItself) :
    (matchUnder wrapper (s.pattern evaluate) s .empty).BeginsEmpty := by
  have hall := matchElements_self s.properties wrapper helements
  rw [Atom.map_pattern_listElements] at hall
  exact BeginsEmpty.continued ((PropertySet.matchLaws_self hlaws).mapFailure _) hall

/-!
## Atoms

An equal constant is accepted at once.  Anything else is as deep as itself, and its type and its
parts are met with themselves.
-/

namespace Matcher

/-- An equal constant is accepted at once; anything else, since it is no deeper than itself,
through its type and its parts. -/
theorem ofStructure_self {pattern : Atom} {type parts : Matcher}
    (htype : (type pattern.type .empty).BeginsEmpty) (hparts : (parts pattern .empty).BeginsEmpty) :
    (ofStructure pattern type parts pattern .empty).BeginsEmpty := by
  unfold ofStructure
  simp only [Atom.beq_refl, if_true, if_neg (Nat.lt_irrefl pattern.depth)]
  split
  · exact beginsEmpty_found
  · exact (htype.mapFailure _).continued hparts

theorem applicationParts_self {evaluate : GuardEvaluator} {pattern head argument : Atom}
    {bound : Bindings} {mark : Mark} {matchHead matchArgument : Matcher}
    (hhead : (matchHead head .empty).BeginsEmpty)
    (hargument : (matchArgument argument .empty).BeginsEmpty)
    (hlist : ∀ s, argument.sequence? = some s →
      ∀ wrapper, (Sequence.matchUnder wrapper (s.pattern evaluate) s .empty).BeginsEmpty) :
    (applicationParts pattern matchHead matchArgument (Atom.argumentElements evaluate argument)
      (.application head argument bound mark) .empty).BeginsEmpty := by
  refine (hhead.mapFailure _).continued ?_
  cases argument with
  | sequence s listMark => exact hlist s rfl _
  | _ => exact hargument

end Matcher

namespace Atom

open Matcher

section

variable (evaluate : GuardEvaluator)

mutual

theorem search_self : ∀ atom : Atom, (search evaluate atom atom .empty).BeginsEmpty
  | typeUniverse mark => by
      rw [search_typeUniverse, ofLeaf, if_pos (beq_refl _)]
      exact beginsEmpty_found
  | root name mark => by
      rw [search_root]
      split
      · exact beginsEmpty_found
      · rw [ofLeaf, if_pos (beq_refl _)]
        exact beginsEmpty_found
  | literal value type mark => by
      rw [search_literal, ofLeaf, if_pos (beq_refl _)]
      exact beginsEmpty_found
  | operator op mark => by
      rw [search_operator, ofLeaf, if_pos (beq_refl _)]
      exact beginsEmpty_found
  | var name type guard index mark => by
      rw [search_var]
      split
      · rw [ofBound, if_pos (beq_refl _)]
        exact beginsEmpty_found
      · rw [ofFree, if_pos (beq_refl _), NameMap.find?_empty]
        exact beginsEmpty_found
  | lambda parameter body mark => by
      rw [search_lambda]
      refine ofStructure_self (beginsEmpty_anyType _) ?_
      exact @Element.matchAll_self [_, _] (List.forall_mem_cons.mpr
        ⟨beginsEmpty_watched (search_self parameter),
          List.forall_mem_singleton.mpr (beginsEmpty_watched (search_self body))⟩)
  | sequence ⟨properties, elements⟩ mark => by
      rw [search_sequence]
      exact ofStructure_self (beginsEmpty_anyType _)
        (Sequence.matchUnder_self _ ⟨properties, elements⟩ (lawElements_self properties)
          (listElements_self elements))
  | propertySet properties mark => by
      rw [search_propertySet]
      exact ofStructure_self (beginsEmpty_anyType _)
        (PropertySet.matchLaws_self (lawElements_self properties))
  | application head argument bound mark => by
      rw [search_application]
      exact ofStructure_self (headType_self head argument bound mark)
        (applicationParts_self (beginsEmpty_watched (search_self head))
          (beginsEmpty_watched (search_self argument)) (argumentList_self argument))

theorem headType_self : ∀ (head argument : Atom) (bound : Bindings) (mark : Mark),
    (headType evaluate head (application head argument bound mark).type .empty).BeginsEmpty
  | operator ⟨_, _, _, some result, _⟩ _, _, _, _ => beginsEmpty_watched (search_self result)
  | operator ⟨_, _, _, none, _⟩ _, _, _, _ => beginsEmpty_anyType _
  | typeUniverse _, _, _, _ | root _ _, _, _, _ | literal _ _ _, _, _, _ | var _ _ _ _ _, _, _, _
  | lambda _ _ _, _, _, _ | sequence _ _, _, _, _ | propertySet _ _, _, _, _
  | application _ _ _ _, _, _, _ => beginsEmpty_anyType _

theorem argumentList_self : ∀ argument : Atom, ∀ s, argument.sequence? = some s →
    ∀ wrapper, (Sequence.matchUnder wrapper (s.pattern evaluate) s .empty).BeginsEmpty
  | sequence ⟨properties, elements⟩ _, _, hs, wrapper => by
      cases hs
      exact Sequence.matchUnder_self wrapper ⟨properties, elements⟩ (lawElements_self properties)
        (listElements_self elements)
  | typeUniverse _, _, hs, _ | root _ _, _, hs, _ | literal _ _ _, _, hs, _
  | var _ _ _ _ _, _, hs, _ | lambda _ _ _, _, hs, _ | propertySet _ _, _, hs, _
  | operator _ _, _, hs, _ | application _ _ _ _, _, hs, _ => by cases hs

theorem listElements_self : ∀ list : List Atom, ∀ element ∈ listElements evaluate list,
    element.MatchesItself
  | [] => List.forall_mem_nil _
  | atom :: rest => by
      rw [listElements_cons]
      exact List.forall_mem_cons.mpr ⟨beginsEmpty_watched (search_self atom),
        listElements_self rest⟩

theorem optionElement_self : ∀ (value : Option Atom) (element : Element),
    optionElement evaluate value = some element → element.MatchesItself
  | some atom, _, rfl => beginsEmpty_watched (search_self atom)

theorem lawElements_self : ∀ (properties : PropertySet Atom) (law : Law) (element : Element),
    (lawElements evaluate properties).get law = some element → element.MatchesItself
  | ⟨a, c, i, b, d⟩, law, element, h => by
      cases law with
      | associative => exact optionElement_self a element h
      | commutative => exact optionElement_self c element h
      | idempotent => exact optionElement_self i element h
      | absorber => exact optionElement_self b element h
      | identity => exact optionElement_self d element h

end

end

end Atom

namespace Engine

/-- Every atom matches itself, whatever its kind, and the first binding set that is found is
empty. -/
theorem tryMatch_self (engine : Engine) (atom : Atom) :
    (engine.tryMatch atom atom .empty).value.isFailed = false ∧
      (engine.tryMatch atom atom .empty).value.first.value = .ok .empty := by
  have hhead : (engine.tryMatch atom atom .empty).value.bindings.head? = some .empty :=
    Matcher.beginsEmpty_watched (Atom.search_self engine.evaluate atom)
  constructor
  · have hready := (engine.balanced_tryMatch atom atom .empty).ready
    rw [Bool.eq_false_iff, ne_eq, hready.isFailed_iff]
    intro hnone
    rw [hnone] at hhead
    cases hhead
  · exact (Outcome.first_eq_ok_iff _ _).mpr hhead

end Engine

end Equational
