import Equational.Cbor.Decoding
import Equational.Cbor.Encoding
import Equational.Proofs.Interpreting
import Equational.Proofs.WellMade

/-!
# Stored atoms

Reading builds atoms through the same checks and normal forms that they were
built through.  So what is read of a stored atom that was built so is the same
term, cut off where more containers are open at once than the reader allows.
-/

namespace Equational

open Atom

def Atom.NotNaN : Atom → Prop
  | .literal (.float value) _ _ => value.IsNumber
  | _ => True

instance : DecidablePred Atom.NotNaN
  | .literal (.float value) _ _ => inferInstanceAs (Decidable value.IsNumber)
  | .literal (.integer _) _ _ | .literal (.string _) _ _ | .literal (.symbol _) _ _
  | .literal (.boolean _) _ _ | .typeUniverse _ | .root .. | .var .. | .lambda .. | .sequence ..
  | .propertySet .. | .operator .. | .application .. => instDecidableTrue

/-- The atom is not the literal of a NaN, except for the one that is read for all of them. -/
def Atom.Quiet : Atom → Prop
  | .literal (.float value) _ _ => value.IsQuiet
  | _ => True

theorem Atom.NotNaN.quiet {atom : Atom} (h : atom.NotNaN) : atom.Quiet := by
  unfold Quiet
  split
  · exact Number.Binary64.IsNumber.isQuiet h
  · trivial

/-!
## Forms of values
-/

namespace Cbor

open Item

theorem asInt64_ofInt (i : Int64) : asInt64 (.ofInt i.toInt) = .ok i := by
  have hlow := i.le_toInt
  have hhigh := i.toInt_lt
  unfold ofInt
  split
  · rename_i hnegative
    have hbound : (-1 - i.toInt).toNat < Number.twoTo 63 := by
      change _ < 9223372036854775808
      omega
    have hvalue : (-1 - ((-1 - i.toInt).toNat : Int)) = i.toInt := by omega
    unfold asInt64
    simp only [untagged, hbound, if_true, hvalue, Int64.ofInt_toInt]
  · rename_i hpositive
    have hbound : i.toInt.toNat < Number.twoTo 63 := by
      change _ < 9223372036854775808
      omega
    have hvalue : (i.toInt.toNat : Int) = i.toInt := by omega
    unfold asInt64
    simp only [untagged, hbound, if_true, hvalue, Int64.ofInt_toInt]

theorem nesting_ofInt (i : Int) : (Item.ofInt i).nesting = 0 := by
  unfold ofInt
  split <;> rfl

theorem find?_name (law : Law) :
    Key.find? (.name (utf8 law.name)) (Law.all.map Law.name) = some (Law.all.idxOf law) := by
  cases law <;> decide

theorem getElem?_idxOf (law : Law) : Law.all[Law.all.idxOf law]? = some law := by
  cases law <;> rfl

theorem propertiesItem_eq (properties : Properties) : propertiesItem properties =
    .record (Law.all.filterMap fun law => (optionItem (properties.get law)).map (law.name, ·)) := by
  rcases properties with ⟨a, c, i, b, d⟩
  rfl

theorem atomItem_ne_null (atom : Atom) : atomItem atom ≠ .null := by
  cases atom with
  | sequence s mark => cases s; exact fun h => by cases h
  | operator op mark => cases op; exact fun h => by cases h
  | _ => exact fun h => by cases h

/-!
## Reading what is stored

What the parts of a pair are found to be, the pair is found to be; a stored atom is found by the
reader of nested atoms.
-/

section

variable {depth : Nat} {read : Item → Read Atom}

theorem reads_literal (value : Literal) : Reads readLiteral depth (literalItem value) value := by
  cases value with
  | integer value =>
      refine reads_variant 0 (by decide) fun d _ => ?_
      exact (Reads.of_leaf (nesting_ofInt _) (asInt64_ofInt value)).map Literal.integer
  | string value =>
      refine reads_variant 1 (by decide) fun d _ => ?_
      exact (@Reads.of_leaf _ asText _ _ _ rfl rfl).map Literal.string
  | symbol value =>
      refine reads_variant 2 (by decide) fun d _ => ?_
      exact (@Reads.of_leaf _ asText _ _ _ rfl rfl).map Literal.symbol
  | boolean value =>
      refine reads_variant 3 (by decide) fun d _ => ?_
      exact (@Reads.of_leaf _ asBool _ _ _ rfl rfl).map Literal.boolean
  | float value =>
      refine reads_variant 4 (by decide) fun d _ => ?_
      exact (@Reads.of_leaf _ asFloat _ _ _ rfl rfl).map Literal.float

/-- What is found for a stored atom: the term, without its native evaluations. -/
abbrev Finds (read : Item → Read Atom) (depth : Nat) (atom : Atom) : Prop :=
  Reads read depth (atomItem atom) (atom.bare fun _ => none)

def lawStep (read : Item → Read Atom) (properties : Properties) (field : Nat) (value : Item) :
    Read Properties := do
  let law ← Item.required (Law.all[field]?)
  let value ← value.asOption read
  pure (properties.set law value)

theorem exists_fills_laws {properties : Properties}
    (h : ∀ law atom, properties.get law = some atom → Finds read depth atom) (laws : List Law)
    (hnodup : laws.Nodup) (seen : List Nat) (hseen : ∀ law ∈ laws, Law.all.idxOf law ∉ seen)
    (record : Properties) (hrecord : ∀ law ∈ laws, record.get law = none) :
    ∃ result, Fills (Law.all.map Law.name) (lawStep read) depth seen record
        (laws.filterMap fun law => (optionItem (properties.get law)).map (law.name, ·)) result ∧
      ∀ law, result.get law =
        if law ∈ laws then (properties.bare fun _ => none).get law else record.get law := by
  induction laws generalizing seen record with
  | nil => exact ⟨record, .nil, fun law => (if_neg List.not_mem_nil).symm⟩
  | cons law rest ih =>
      rw [List.nodup_cons] at hnodup
      rw [List.forall_mem_cons] at hseen hrecord
      cases hvalue : properties.get law with
      | none =>
          rcases ih hnodup.2 seen hseen.2 record hrecord.2 with ⟨result, hfills, hget⟩
          refine ⟨result, ?_, ?_⟩
          · rw [List.filterMap_cons, hvalue]
            exact hfills
          · intro other
            rw [hget other]
            by_cases hother : other = law
            · rw [hother, if_neg hnodup.1, if_pos List.mem_cons_self, hrecord.1,
                PropertySet.get_bare, hvalue, Option.map_none]
            · simp only [List.mem_cons, hother, false_or]
      | some atom =>
          have hnext : ∀ other ∈ rest, Law.all.idxOf other ∉ Law.all.idxOf law :: seen := by
            intro other hother hmem
            rcases List.mem_cons.mp hmem with hindex | hmem
            · have heq : other = law := by
                revert hindex
                cases other <;> cases law <;> decide
              exact hnodup.1 (heq ▸ hother)
            · exact hseen.2 other hother hmem
          have hunset : ∀ other ∈ rest,
              (record.set law (some (atom.bare fun _ => none))).get other = none := by
            intro other hother
            have hne : other ≠ law := fun heq => hnodup.1 (heq ▸ hother)
            rw [PropertySet.get_set_of_ne record _ hne]
            exact hrecord.2 other hother
          have hstep : lawStep read record (Law.all.idxOf law) =
              fun value => value.asOption read >>= fun value => pure (record.set law value) := by
            unfold lawStep
            rw [getElem?_idxOf]
            rfl
          rcases ih hnodup.2 _ hnext _ hunset with ⟨result, hfills, hget⟩
          refine ⟨result, ?_, ?_⟩
          · rw [List.filterMap_cons, hvalue]
            refine .cons (Law.all.idxOf law) (find?_name law) ?_ ?_ hfills
            · rw [Bool.eq_false_iff]
              exact fun hmem => hseen.1 (List.contains_iff_mem.mp hmem)
            · rw [hstep]
              exact Reads.bind _ ((h law atom hvalue).asOption (atomItem_ne_null atom)) rfl
          · intro other
            rw [hget other]
            by_cases hother : other = law
            · rw [hother, if_neg hnodup.1, if_pos List.mem_cons_self, PropertySet.get_set_self,
                PropertySet.get_bare, hvalue, Option.map_some]
            · simp only [List.mem_cons, hother, false_or, PropertySet.get_set_of_ne record _ hother]

theorem reads_properties {properties : Properties} (hlegal : properties.checked = .ok properties)
    (h : ∀ d, depth = d + 1 → ∀ law atom, properties.get law = some atom → Finds read d atom) :
    Reads (readProperties read) depth (propertiesItem properties)
      (properties.bare fun _ => none) := by
  rw [propertiesItem_eq]
  have hrecord : Reads (asRecord (Law.all.map Law.name) (lawStep read) PropertySet.none) depth
      (.record (Law.all.filterMap fun law => (optionItem (properties.get law)).map (law.name, ·)))
      (properties.bare fun _ => none) := by
    apply Fills.reads
    intro d hd
    rcases exists_fills_laws (h d hd) Law.all (by decide) [] (fun _ _ => List.not_mem_nil) .none
      (fun law _ => PropertySet.get_none law) with ⟨result, hfills, hget⟩
    have hresult : result = properties.bare fun _ => none := by
      apply PropertySet.eq_of_get_eq
      intro law
      rw [hget law, if_pos (by cases law <;> decide)]
    rwa [← hresult]
  exact Reads.bind _ hrecord (by rw [checked_properties_bare.mpr hlegal]; rfl)

theorem reads_sequence {s : Sequence Atom} (hlegal : s.properties.checked = .ok s.properties)
    (hnormal : Sequence.normalize s.properties s.elements = s.elements)
    (hproperties : ∀ d, depth = d + 1 →
      ∀ e, d = e + 1 → ∀ law atom, s.properties.get law = some atom → Finds read e atom)
    (helements : ∀ d, depth = d + 1 → ∀ e, d = e + 1 →
      List.Forall₂ (Reads read e) (listItems s.elements) (s.elements.map (bare fun _ => none))) :
    Reads (readSequence read) depth (sequenceItem s) (s.bare fun _ => none) := by
  rcases s with ⟨properties, elements⟩
  have hresult : Sequence.ofList (properties.bare fun _ => none)
      (elements.map (bare fun _ => none)) =
        Sequence.bare (fun _ => none) ⟨properties, elements⟩ := by
    rw [Sequence.ofList_bare, Sequence.ofList, hnormal]
  let fields : Fields :=
    { Fields.start with
      properties := properties.bare fun _ => none
      list := some (elements.map (bare fun _ => none)) }
  refine Reads.bind fields (Fills.reads fun d hd => ?_) (congrArg Except.ok hresult)
  refine .cons 0 (by decide) rfl ((reads_properties hlegal (hproperties d hd)).map _) ?_
  exact .cons 1 (by decide) rfl ((Reads.asList (helements d hd)).map _) .nil

theorem reads_operator {op : Operator Atom} (hlegal : op.properties.checked = .ok op.properties)
    (hchecked : op.checked = .ok op)
    (hproperties : ∀ d, depth = d + 1 →
      ∀ e, d = e + 1 → ∀ law atom, op.properties.get law = some atom → Finds read e atom)
    (hparameters : ∀ d, depth = d + 1 → ∀ e, d = e + 1 →
      List.Forall₂ (Reads read e) (listItems op.parameters)
        (op.parameters.map (bare fun _ => none)))
    (hresult : ∀ d, depth = d + 1 → ∀ atom, op.resultType = some atom → Finds read d atom) :
    Reads (readOperator read) depth (operatorItem op) (op.bare fun _ => none) := by
  rcases op with ⟨name, properties, parameters, resultType, native⟩
  let fields : Fields :=
    { Fields.start with
      name := some name
      properties := properties.bare fun _ => none
      list := some (parameters.map (bare fun _ => none))
      first := resultType.map (bare fun _ => none) }
  have hchecked' : (do
      let name ← Item.required fields.name
      let list ← Item.required fields.list
      (Operator.checked ⟨name, fields.properties, list, fields.first, none⟩).mapError
        ReadError.illegalTerm) =
      .ok (Operator.bare (fun _ => none) ⟨name, properties, parameters, resultType, native⟩) := by
    exact congrArg (Except.mapError ReadError.illegalTerm) (checked_operator_bare.mpr hchecked)
  refine Reads.bind fields (Fills.reads fun d hd => ?_) hchecked'
  refine .cons 0 rfl rfl ((@Reads.of_leaf _ asText _ _ _ rfl rfl).map _) ?_
  refine .cons 1 rfl rfl ((reads_properties hlegal (hproperties d hd)).map _) ?_
  refine .cons 2 rfl rfl ((Reads.asList (hparameters d hd)).map _) ?_
  cases resultType with
  | none => exact .nil
  | some type =>
      refine .cons 3 rfl rfl ?_ .nil
      exact ((hresult d hd type rfl).asOption (atomItem_ne_null type)).map _

theorem reads_variable {name : String} {type : Atom} {guard : Option Atom} {index : UInt64}
    (htype : ∀ d, depth = d + 1 → Finds read d type)
    (hguard : ∀ d, depth = d + 1 → ∀ atom, guard = some atom → Finds read d atom) :
    Reads (readVariable read) depth
      (present [("name", some (.text name)), ("ty", some (atomItem type)),
        ("guard", optionItem guard), ("index", some (.unsigned index.toNat))])
      (.var name (type.bare fun _ => none) (guard.map (bare fun _ => none)) index .new) := by
  let fields : Fields :=
    { Fields.start with
      name := some name
      first := some (type.bare fun _ => none)
      second := guard.map (bare fun _ => none)
      index := index.toNat.toUInt64 }
  have hindex : index.toNat.toUInt64 = index := UInt64.ofNat_toNat
  have hnumber : Item.asNat (Number.twoTo 64) (.unsigned index.toNat) = .ok index.toNat :=
    if_pos index.toNat_lt
  refine Reads.bind fields (Fills.reads fun d hd => ?_) (by rw [← hindex]; rfl)
  refine .cons 0 rfl rfl ((@Reads.of_leaf _ asText _ _ _ rfl rfl).map _) ?_
  refine .cons 1 rfl rfl ((htype d hd).map _) ?_
  cases guard with
  | none => exact .cons 3 rfl rfl ((Reads.of_leaf rfl hnumber).map _) .nil
  | some condition =>
      have hcondition := (hguard d hd condition rfl).asOption (atomItem_ne_null condition)
      refine .cons 2 rfl rfl (hcondition.map _) ?_
      exact .cons 3 rfl rfl ((Reads.of_leaf rfl hnumber).map _) .nil

theorem reads_pair {names : List String} {first second : Atom} {firstName secondName : String}
    (hfirst : Key.find? (.name (utf8 firstName)) names = some 0)
    (hsecond : Key.find? (.name (utf8 secondName)) names = some 1)
    (h : ∀ d, depth = d + 1 → Finds read d first ∧ Finds read d second) :
    Reads (fun item => asRecord names (pairStep read) Fields.start item >>= finishPair) depth
      (.record [(firstName, atomItem first), (secondName, atomItem second)])
      (first.bare fun _ => none, second.bare fun _ => none) := by
  let fields : Fields :=
    { Fields.start with
      first := some (first.bare fun _ => none)
      second := some (second.bare fun _ => none) }
  refine Reads.bind fields (Fills.reads fun d hd => ?_) rfl
  refine .cons 0 hfirst rfl ((h d hd).1.map _) ?_
  exact .cons 1 hsecond rfl ((h d hd).2.map _) .nil

end

mutual

theorem finds_atom : ∀ atom : Atom, atom.Everywhere WellMade → ∀ depth within, depth < within →
    Finds (readAtomWithin within) depth atom
  | .typeUniverse mark => by
      intro _ depth within hdepth
      rcases Nat.exists_eq_add_of_lt hdepth with ⟨more, rfl⟩
      exact reads_text 0 rfl rfl
  | .root name mark => by
      intro _ depth within hdepth
      rcases Nat.exists_eq_add_of_lt hdepth with ⟨more, rfl⟩
      refine reads_variant 1 rfl fun d _ => ?_
      exact (@Reads.of_leaf _ asText _ _ _ rfl rfl).map _
  | .literal value type mark => by
      intro h depth within hdepth
      rcases Nat.exists_eq_add_of_lt hdepth with ⟨more, rfl⟩
      let fields : Fields :=
        { Fields.start with literal := some value, first := some (type.bare fun _ => none) }
      refine reads_variant 2 rfl fun d hd => Reads.bind fields (Fills.reads fun e he => ?_) rfl
      have htype := finds_atom type h.2 e (depth + more) (by omega)
      exact .cons 0 rfl rfl ((reads_literal value).map _) (.cons 1 rfl rfl (htype.map _) .nil)
  | .var name type guard index mark => by
      intro h depth within hdepth
      rcases Nat.exists_eq_add_of_lt hdepth with ⟨more, rfl⟩
      rw [Finds, bare_var]
      refine reads_variant 3 rfl fun d hd => reads_variable ?_ ?_
      · exact fun e he => finds_atom type h.2.1 e (depth + more) (by omega)
      · exact fun e he => finds_option guard h.2.2 e (depth + more) (by omega)
  | .lambda parameter body mark => by
      intro h depth within hdepth
      rcases Nat.exists_eq_add_of_lt hdepth with ⟨more, rfl⟩
      have hbound : (parameter.bare fun _ => none).isBoundVar = true :=
        (isBoundVar_bare parameter).trans h.1
      have hlambda : (checkedLambda (parameter.bare fun _ => none)
          (body.bare fun _ => none)).mapError ReadError.illegalTerm =
          .ok ((Atom.lambda parameter body mark).bare fun _ => none) := by
        rw [checkedLambda, if_pos hbound]
        rfl
      refine reads_variant 4 rfl fun d hd =>
        Reads.bind _ (reads_pair rfl rfl fun e he => ?_) hlambda
      exact ⟨finds_atom parameter h.2.1 e (depth + more) (by omega),
        finds_atom body h.2.2 e (depth + more) (by omega)⟩
  | .sequence ⟨properties, elements⟩ mark => by
      intro h depth within hdepth
      rcases Nat.exists_eq_add_of_lt hdepth with ⟨more, rfl⟩
      rw [Finds, bare_sequence]
      refine reads_variant 5 rfl fun d hd => (reads_sequence h.1.1 h.1.2 ?_ ?_).map _
      · exact fun e he k hk => finds_properties properties h.2.1 k (depth + more) (by omega)
      · exact fun e he k hk => finds_list elements h.2.2 k (depth + more) (by omega)
  | .propertySet properties mark => by
      intro h depth within hdepth
      rcases Nat.exists_eq_add_of_lt hdepth with ⟨more, rfl⟩
      refine reads_variant 6 rfl fun d hd => (reads_properties h.1 ?_).map _
      exact fun e he => finds_properties properties h.2 e (depth + more) (by omega)
  | .operator ⟨name, properties, parameters, resultType, native⟩ mark => by
      intro h depth within hdepth
      rcases Nat.exists_eq_add_of_lt hdepth with ⟨more, rfl⟩
      rw [Finds, bare_operator]
      refine reads_variant 7 rfl fun d hd => (reads_operator h.1.1 h.1.2 ?_ ?_ ?_).map _
      · exact fun e he k hk => finds_properties properties h.2.1 k (depth + more) (by omega)
      · exact fun e he k hk => finds_list parameters h.2.2.1 k (depth + more) (by omega)
      · exact fun e he => finds_option resultType h.2.2.2 e (depth + more) (by omega)
  | .application head argument bound mark => by
      intro h depth within hdepth
      rcases Nat.exists_eq_add_of_lt hdepth with ⟨more, rfl⟩
      refine reads_variant 8 rfl fun d hd => Reads.bind _ (reads_pair rfl rfl fun e he => ?_) rfl
      exact ⟨finds_atom head h.2.1 e (depth + more) (by omega),
        finds_atom argument h.2.2 e (depth + more) (by omega)⟩

theorem finds_list : ∀ list : List Atom, ListEverywhere WellMade list → ∀ depth within,
    depth < within →
    List.Forall₂ (Reads (readAtomWithin within) depth) (listItems list)
      (list.map (bare fun _ => none))
  | [] => fun _ _ _ _ => .nil
  | atom :: rest => fun h depth within hdepth =>
      .cons (finds_atom atom h.1 depth within hdepth) (finds_list rest h.2 depth within hdepth)

theorem finds_option : ∀ value : Option Atom, OptionEverywhere WellMade value → ∀ depth within,
    depth < within → ∀ atom, value = some atom → Finds (readAtomWithin within) depth atom
  | none => by
      intro _ _ _ _ _ h
      cases h
  | some atom => by
      intro h depth within hdepth other hother
      cases hother
      exact finds_atom atom h depth within hdepth

theorem finds_properties : ∀ properties : PropertySet Atom,
    PropertiesEverywhere WellMade properties → ∀ depth within, depth < within →
    ∀ law atom, properties.get law = some atom → Finds (readAtomWithin within) depth atom
  | ⟨a, c, i, b, d⟩ => by
      intro h depth within hdepth law
      cases law with
      | associative => exact finds_option a h.1 depth within hdepth
      | commutative => exact finds_option c h.2.1 depth within hdepth
      | idempotent => exact finds_option i h.2.2.1 depth within hdepth
      | absorber => exact finds_option b h.2.2.2.1 depth within hdepth
      | identity => exact finds_option d h.2.2.2.2 depth within hdepth

end

/-!
## What is stored can be read
-/

theorem listSound_iff {items : List Item} : ListSound items ↔ ∀ item ∈ items, item.Sound := by
  induction items with
  | nil =>
      constructor
      · intro _ item hitem
        cases hitem
      · exact fun _ => trivial
  | cons item rest ih => rw [ListSound, ih, List.forall_mem_cons]

theorem sound_record {fields : List (String × Item)} (h : ∀ field ∈ fields, field.2.Sound) :
    (Item.record fields).Sound := by
  refine ⟨rfl, ⟨fields.length, ?_, rfl⟩, listSound_iff.mpr ?_⟩
  · rw [List.length_flatMap]
    simp [Nat.mul_comm]
  · intro item hitem
    rcases List.mem_flatMap.mp hitem with ⟨field, hfield, hmem⟩
    rcases List.mem_cons.mp hmem with rfl | hmem
    · trivial
    · rw [List.mem_singleton.mp hmem]
      exact h field hfield

theorem sound_present {fields : List (String × Option Item)}
    (h : ∀ field ∈ fields, ∀ item, field.2 = some item → item.Sound) : (present fields).Sound := by
  apply sound_record
  intro field hfield
  rcases List.mem_filterMap.mp hfield with ⟨given, hgiven, hsome⟩
  rcases Option.map_eq_some_iff.mp hsome with ⟨item, hitem, rfl⟩
  exact h given hgiven item hitem

theorem sound_variant {name : String} {content : Item} (h : content.Sound) :
    (Item.variant name content).Sound := by
  apply sound_record
  intro field hfield
  rw [List.mem_singleton.mp hfield]
  exact h

theorem sound_literalItem {value : Literal} {type : Atom} {mark : Mark}
    (h : Quiet (.literal value type mark)) : (literalItem value).Sound := by
  cases value with
  | integer value =>
      apply sound_variant
      have hlow := value.le_toInt
      have hhigh := value.toInt_lt
      unfold ofInt
      split
      · change _ < 18446744073709551616
        omega
      · change _ < 18446744073709551616
        omega
  | string value => exact sound_variant trivial
  | symbol value => exact sound_variant trivial
  | boolean value => exact sound_variant trivial
  | float value => exact sound_variant h

mutual

theorem sound_atomItem : ∀ atom : Atom, atom.Everywhere Quiet → (atomItem atom).Sound
  | .typeUniverse _ => fun _ => trivial
  | .root _ _ => fun _ => sound_variant trivial
  | .literal value type mark => fun h => by
      apply sound_variant
      apply sound_record
      simp only [List.forall_mem_cons, List.not_mem_nil, false_implies, implies_true, and_true]
      exact ⟨sound_literalItem h.1, sound_atomItem type h.2⟩
  | .var name type guard index mark => fun h => by
      apply sound_variant
      apply sound_present
      simp only [List.forall_mem_cons, List.not_mem_nil, false_implies, implies_true, and_true,
        Option.some.injEq, forall_eq']
      exact ⟨trivial, sound_atomItem type h.2.1, sound_optionItem guard h.2.2, index.toNat_lt⟩
  | .lambda parameter body mark => fun h => by
      apply sound_variant
      apply sound_record
      simp only [List.forall_mem_cons, List.not_mem_nil, false_implies, implies_true, and_true]
      exact ⟨sound_atomItem parameter h.2.1, sound_atomItem body h.2.2⟩
  | .sequence ⟨properties, elements⟩ mark => fun h => by
      apply sound_variant
      apply sound_record
      simp only [List.forall_mem_cons, List.not_mem_nil, false_implies, implies_true, and_true]
      exact ⟨sound_propertiesItem properties h.2.1, rfl, sound_listItems elements h.2.2⟩
  | .propertySet properties mark => fun h => sound_variant (sound_propertiesItem properties h.2)
  | .operator ⟨name, properties, parameters, resultType, native⟩ mark => fun h => by
      apply sound_variant
      apply sound_present
      simp only [List.forall_mem_cons, List.not_mem_nil, false_implies, implies_true, and_true,
        Option.some.injEq, forall_eq']
      exact ⟨trivial, sound_propertiesItem properties h.2.1,
        ⟨rfl, sound_listItems parameters h.2.2.1⟩,
        sound_optionItem resultType h.2.2.2⟩
  | .application head argument bound mark => fun h => by
      apply sound_variant
      apply sound_record
      simp only [List.forall_mem_cons, List.not_mem_nil, false_implies, implies_true, and_true]
      exact ⟨sound_atomItem head h.2.1, sound_atomItem argument h.2.2⟩

theorem sound_listItems : ∀ list : List Atom, ListEverywhere Quiet list → ListSound (listItems list)
  | [] => fun _ => trivial
  | atom :: rest => fun h => ⟨sound_atomItem atom h.1, sound_listItems rest h.2⟩

theorem sound_optionItem : ∀ value : Option Atom, OptionEverywhere Quiet value →
    ∀ item, optionItem value = some item → item.Sound
  | none => fun _ _ h => by cases h
  | some atom => fun h item hitem => by
      cases hitem
      exact sound_atomItem atom h

theorem sound_propertiesItem : ∀ properties : PropertySet Atom,
    PropertiesEverywhere Quiet properties → (propertiesItem properties).Sound
  | ⟨a, c, i, b, d⟩ => fun h => by
      apply sound_present
      simp only [List.forall_mem_cons, List.not_mem_nil, false_implies, implies_true, and_true]
      exact ⟨sound_optionItem a h.1, sound_optionItem c h.2.1, sound_optionItem i h.2.2.1,
        sound_optionItem b h.2.2.2.1, sound_optionItem d h.2.2.2.2⟩

end

end Cbor

end Equational
