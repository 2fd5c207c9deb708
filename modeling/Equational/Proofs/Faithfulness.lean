import Equational.Proofs.Restoration

/-!
# Faithfulness of stored forms

The stored form of an atom tells it from every other term, up to the bits of
NaNs: there is one form for all of them.  So two atoms are stored alike exactly
if they are the same term once every NaN is the one that is read for all, and
an atom is accepted by the reader if that term is well made and does not open
more containers at once than the reader allows.
-/

namespace Equational

open Atom

/-!
## Quieting

An atom is quieted from the parts upwards, and nothing in it changes but literals.
-/

namespace Number.Binary64

/-- The double that is read where a double was written. -/
def quieted (x : Binary64) : Binary64 :=
  match x.value with
  | .nan _ _ => quietNaN
  | _ => x

theorem isQuiet_quieted (x : Binary64) : x.quieted.IsQuiet := by
  unfold quieted
  split
  · exact fun _ _ _ => rfl
  · rename_i hno
    exact fun negative payload hvalue => absurd hvalue (hno negative payload)

theorem quieted_of_isQuiet {x : Binary64} (h : x.IsQuiet) : x.quieted = x := by
  unfold quieted
  split
  · rename_i negative payload hvalue
    exact (h negative payload hvalue).symm
  · rfl

end Number.Binary64

def Literal.quieted : Literal → Literal
  | float value => float value.quieted
  | value => value

namespace Atom

def quietedAbove : Atom → Atom
  | literal value type mark => literal value.quieted type mark
  | atom => atom

/-- The atom with the quiet NaN for every other.  The parameters stored in applications stay as
they are. -/
def quieted : Atom → Atom := rebuild (fun _ _ => true) quietedAbove

theorem quieted_eq (atom : Atom) :
    atom.quieted = (atom.mapParts fun _ => quieted).quietedAbove :=
  rebuild_eq _ _ atom

theorem parts_quietedAbove (atom : Atom) : atom.quietedAbove.parts = atom.parts := by
  cases atom <;> rfl

theorem quiet_quietedAbove (atom : Atom) : Quiet atom.quietedAbove := by
  cases atom with
  | literal value type mark =>
      cases value with
      | float value => exact value.isQuiet_quieted
      | _ => trivial
  | _ => trivial

theorem quietedAbove_eq_self {atom : Atom} (h : Quiet atom) : atom.quietedAbove = atom := by
  cases atom with
  | literal value type mark =>
      cases value with
      | float value => rw [quietedAbove, Literal.quieted, Number.Binary64.quieted_of_isQuiet h]
      | _ => rfl
  | _ => rfl

theorem everywhere_quieted (atom : Atom) : atom.quieted.Everywhere Quiet := by
  induction atom using parts_induction with
  | step atom ih =>
      rw [quieted_eq, everywhere_iff, parts_quietedAbove, parts_mapParts, List.forall_mem_map]
      exact ⟨quiet_quietedAbove _, ih⟩

theorem quieted_eq_self (atom : Atom) (h : atom.Everywhere Quiet) : atom.quieted = atom := by
  induction atom using parts_induction with
  | step atom ih =>
      rw [everywhere_iff] at h
      have hparts : (atom.mapParts fun _ => quieted) = atom :=
        (mapParts_congr fun part hpart => ih part hpart (h.2 part hpart)).trans (mapParts_id atom)
      rw [quieted_eq, hparts, quietedAbove_eq_self h.1]

end Atom

/-!
## The bytes do not change

The bytes of a record are made of the bytes of its fields, and fields that are left out are left
out of the bytes.  So the bytes of an atom are made of the bytes of its parts, and are those of
its term.
-/

namespace Cbor

namespace Item

theorem length_recordItems (fields : List (String × Item)) :
    (fields.flatMap fun field => [text field.1, field.2]).length = 2 * fields.length := by
  rw [List.length_flatMap]
  simp [Nat.mul_comm]

theorem write_record (fields : List (String × Item)) :
    (record fields).write = head 5 fields.length ++
      writeList (fields.flatMap fun field => [text field.1, field.2]) := by
  rw [record, write, length_recordItems, Nat.mul_div_cancel_left _ (by decide)]

theorem write_record_congr {fields others : List (String × Item)}
    (h : List.Forall₂ (fun field other => field.1 = other.1 ∧ field.2.write = other.2.write)
      fields others) : (record fields).write = (record others).write := by
  have hitems : writeList (fields.flatMap fun field => [text field.1, field.2]) =
      writeList (others.flatMap fun field => [text field.1, field.2]) := by
    induction h with
    | nil => rfl
    | @cons field other _ _ hfield _ ih =>
        simp only [List.flatMap_cons, List.cons_append, List.nil_append, writeList, ih, hfield.1,
          hfield.2]
  rw [write_record, write_record, h.length_eq, hitems]

theorem write_variant_congr {name : String} {content other : Item}
    (h : content.write = other.write) :
    (variant name content).write = (variant name other).write :=
  write_record_congr (.cons ⟨rfl, h⟩ .nil)

theorem write_present_congr {fields others : List (String × Option Item)}
    (h : List.Forall₂ (fun field other => field.1 = other.1 ∧
      field.2.map write = other.2.map write) fields others) :
    (present fields).write = (present others).write := by
  apply write_record_congr
  induction h with
  | nil => exact .nil
  | @cons field other _ _ hfield _ ih =>
      rcases field with ⟨name, value⟩
      rcases other with ⟨name', value'⟩
      cases value with
      | none =>
          cases value' with
          | none => exact ih
          | some item' => cases hfield.2
      | some item =>
          cases value' with
          | none => cases hfield.2
          | some item' => exact .cons ⟨hfield.1, Option.some.inj hfield.2⟩ ih

end Item

open Item

theorem writeFloat_quieted (x : Number.Binary64) : writeFloat x.quieted = writeFloat x := by
  unfold Number.Binary64.quieted
  split
  · rename_i negative payload hvalue
    have hquiet : writeFloat .quietNaN = [0xf9, 0x7e, 0x00] := by decide
    rw [hquiet, writeFloat, hvalue]
  · rfl

theorem write_literalItem_quieted (value : Literal) :
    (literalItem value.quieted).write = (literalItem value).write := by
  cases value with
  | float value => exact write_variant_congr (writeFloat_quieted value)
  | _ => rfl

section

variable {f : Atom → Atom}

theorem write_list_map {list : List Atom}
    (h : ∀ atom ∈ list, (atomItem (f atom)).write = (atomItem atom).write) :
    (Item.list (listItems (list.map f))).write = (Item.list (listItems list)).write := by
  have hitems : (listItems (list.map f)).length = (listItems list).length ∧
      writeList (listItems (list.map f)) = writeList (listItems list) := by
    induction list with
    | nil => exact ⟨rfl, rfl⟩
    | cons atom rest ih =>
        rw [List.forall_mem_cons] at h
        have hrest := ih h.2
        rw [List.map_cons, listItems, listItems, List.length_cons, List.length_cons, writeList,
          writeList, h.1, hrest.1, hrest.2]
        exact ⟨rfl, rfl⟩
  rw [Item.list, Item.list, write, write, hitems.1, hitems.2]

theorem write_optionItem_map {value : Option Atom}
    (h : ∀ atom ∈ value, (atomItem (f atom)).write = (atomItem atom).write) :
    (optionItem (value.map f)).map write = (optionItem value).map write := by
  cases value with
  | none => rfl
  | some atom => exact congrArg some (h atom rfl)

theorem write_propertiesItem_map {properties : Properties}
    (h : ∀ value ∈ properties.values, (atomItem (f value)).write = (atomItem value).write) :
    (propertiesItem (properties.map f)).write = (propertiesItem properties).write := by
  rcases properties with ⟨a, c, i, b, d⟩
  simp only [PropertySet.values, List.forall_mem_append, Option.mem_toList] at h
  rcases h with ⟨ha, hc, hi, hb, hd⟩
  exact write_present_congr (.cons ⟨rfl, write_optionItem_map ha⟩
    (.cons ⟨rfl, write_optionItem_map hc⟩ (.cons ⟨rfl, write_optionItem_map hi⟩
      (.cons ⟨rfl, write_optionItem_map hb⟩ (.cons ⟨rfl, write_optionItem_map hd⟩ .nil)))))

end

theorem write_atomItem_quietedAbove (atom : Atom) :
    (atomItem atom.quietedAbove).write = (atomItem atom).write := by
  cases atom with
  | literal value type mark =>
      exact write_variant_congr (write_record_congr
        (.cons ⟨rfl, write_literalItem_quieted value⟩ (.cons ⟨rfl, rfl⟩ .nil)))
  | _ => rfl

theorem write_atomItem_mapParts {f : Role → Atom → Atom} {atom : Atom}
    (h : ∀ part ∈ atom.parts, (atomItem (f part.1 part.2)).write = (atomItem part.2).write) :
    (atomItem (atom.mapParts f)).write = (atomItem atom).write := by
  cases atom with
  | typeUniverse mark | root name mark => rfl
  | literal value type mark =>
      rw [parts, List.forall_mem_singleton] at h
      exact write_variant_congr (write_record_congr (.cons ⟨rfl, rfl⟩ (.cons ⟨rfl, h⟩ .nil)))
  | var name type guard index mark =>
      simp only [parts, List.forall_mem_cons, List.forall_mem_map, Option.mem_toList] at h
      exact write_variant_congr (write_present_congr (.cons ⟨rfl, rfl⟩
        (.cons ⟨rfl, congrArg some h.1⟩ (.cons ⟨rfl, write_optionItem_map h.2⟩
          (.cons ⟨rfl, rfl⟩ .nil)))))
  | lambda parameter body mark =>
      rw [parts, List.forall_mem_cons, List.forall_mem_singleton] at h
      exact write_variant_congr (write_record_congr (.cons ⟨rfl, h.1⟩ (.cons ⟨rfl, h.2⟩ .nil)))
  | sequence s mark =>
      rcases s with ⟨properties, elements⟩
      simp only [parts, List.forall_mem_append, List.forall_mem_map] at h
      exact write_variant_congr (write_record_congr
        (.cons ⟨rfl, write_propertiesItem_map h.1⟩ (.cons ⟨rfl, write_list_map h.2⟩ .nil)))
  | propertySet properties mark =>
      simp only [parts, List.forall_mem_map] at h
      exact write_variant_congr (write_propertiesItem_map h)
  | operator op mark =>
      rcases op with ⟨name, properties, parameters, resultType, native⟩
      simp only [parts, List.forall_mem_append, List.forall_mem_map, Option.mem_toList] at h
      exact write_variant_congr (write_present_congr (.cons ⟨rfl, rfl⟩
        (.cons ⟨rfl, congrArg some (write_propertiesItem_map h.1)⟩
          (.cons ⟨rfl, congrArg some (write_list_map h.2.1)⟩
            (.cons ⟨rfl, write_optionItem_map h.2.2⟩ .nil)))))
  | application head argument bound mark =>
      rw [parts, List.forall_mem_cons, List.forall_mem_singleton] at h
      exact write_variant_congr (write_record_congr (.cons ⟨rfl, h.1⟩ (.cons ⟨rfl, h.2⟩ .nil)))

theorem write_atomItem_quieted (atom : Atom) :
    (atomItem atom.quieted).write = (atomItem atom).write := by
  induction atom using parts_induction with
  | step atom ih =>
      rw [quieted_eq, write_atomItem_quietedAbove]
      exact write_atomItem_mapParts ih

theorem atomItem_bareAbove (f : Option String → Option String) (atom : Atom) :
    atomItem (atom.bareAbove f) = atomItem atom := by
  cases atom with
  | operator op mark =>
      cases op
      rfl
  | _ => rfl

theorem write_atomItem_bare {f : Option String → Option String} (atom : Atom) :
    (atomItem (atom.bare f)).write = (atomItem atom).write := by
  induction atom using parts_induction with
  | step atom ih =>
      rw [bare_eq, ← atomItem_bareAbove f atom]
      exact write_atomItem_mapParts fun part hpart => ih part (parts_bareAbove atom ▸ hpart)

theorem encode_quieted (atom : Atom) : atom.quieted.encode = atom.encode :=
  write_atomItem_quieted atom

/-!
## Items determine terms

The fields of a record have different names.  So a record determines its fields, and the kind of
an atom is told from the name that it is stored under.
-/

namespace Item

theorem record_inj {fields others : List (String × Item)} (h : record fields = record others) :
    fields = others := by
  have hitems : fields.flatMap (fun field => [text field.1, field.2]) =
      others.flatMap fun field => [text field.1, field.2] := (Item.map.inj h).2.1
  clear h
  induction fields generalizing others with
  | nil =>
      cases others with
      | nil => rfl
      | cons other others => cases hitems
  | cons field fields ih =>
      cases others with
      | nil => cases hitems
      | cons other others =>
          rw [List.flatMap_cons, List.flatMap_cons] at hitems
          injection hitems with hname hitems
          injection hname with hname
          injection hitems with hvalue hitems
          rw [Prod.ext hname hvalue, ih hitems]

theorem variant_inj {name name' : String} {content content' : Item}
    (h : variant name content = variant name' content') : name = name' ∧ content = content' := by
  have hfields := record_inj h
  injection hfields with hfield _
  injection hfield with hname hcontent
  exact ⟨hname, hcontent⟩

/-- Fields of the same different names determine each other, also those that are left out. -/
theorem present_inj {fields others : List (String × Option Item)}
    (h : present fields = present others) (hnames : fields.map Prod.fst = others.map Prod.fst)
    (hnodup : (fields.map Prod.fst).Nodup) : fields = others := by
  have hpresent := record_inj h
  clear h
  induction fields generalizing others with
  | nil =>
      rw [List.map_nil] at hnames
      exact (List.map_eq_nil_iff.mp hnames.symm).symm
  | cons field fields ih =>
      cases others with
      | nil => cases hnames
      | cons other others =>
          rcases field with ⟨name, value⟩
          rcases other with ⟨name', value'⟩
          injection hnames with hname hnames
          rw [List.map_cons, List.nodup_cons] at hnodup
          -- a field that only one of the records has would stand for another name in the other
          have hnot : ∀ (rest : List (String × Option Item)) (item : Item),
              rest.map Prod.fst = fields.map Prod.fst →
              (name, item) ∉ rest.filterMap fun field => field.2.map (field.1, ·) := by
            intro rest item hrest hmem
            rcases List.mem_filterMap.mp hmem with ⟨given, hgiven, hsome⟩
            rcases Option.map_eq_some_iff.mp hsome with ⟨_, _, hpair⟩
            injection hpair with hfst _
            apply hnodup.1
            rw [← hrest, ← hfst]
            exact List.mem_map.mpr ⟨given, hgiven, rfl⟩
          change name = name' at hname
          subst hname
          cases value with
          | none =>
              cases value' with
              | none => rw [ih hnames hnodup.2 hpresent]
              | some item =>
                  refine absurd ?_ (hnot fields item rfl)
                  change fields.filterMap _ = _ at hpresent
                  rw [hpresent]
                  exact List.mem_cons_self
          | some item =>
              cases value' with
              | none =>
                  refine absurd ?_ (hnot others item hnames.symm)
                  change _ = others.filterMap _ at hpresent
                  rw [← hpresent]
                  exact List.mem_cons_self
              | some item' =>
                  injection hpresent with hfield hpresent
                  injection hfield with _ hitem
                  rw [hitem, ih hnames hnodup.2 hpresent]

end Item

def kindName : Atom → String
  | .typeUniverse _ => "TypeUniverse"
  | .root .. => "RootType"
  | .literal .. => "Literal"
  | .var .. => "Variable"
  | .lambda .. => "Lambda"
  | .sequence .. => "Seq"
  | .propertySet .. => "Prop"
  | .operator .. => "OperatorRef"
  | .application .. => "Apply"

theorem atomItem_eq_variant (atom : Atom) :
    (∃ mark, atom = .typeUniverse mark) ∨
      ∃ content, atomItem atom = .variant (kindName atom) content := by
  cases atom with
  | typeUniverse mark => exact Or.inl ⟨mark, rfl⟩
  | sequence s mark =>
      cases s
      exact Or.inr ⟨_, rfl⟩
  | operator op mark =>
      cases op
      exact Or.inr ⟨_, rfl⟩
  | _ => exact Or.inr ⟨_, rfl⟩

theorem kindName_eq {a b : Atom} (h : atomItem a = atomItem b) : kindName a = kindName b := by
  rcases atomItem_eq_variant a with ⟨mark, rfl⟩ | ⟨content, ha⟩
  · rcases atomItem_eq_variant b with ⟨mark', rfl⟩ | ⟨content', hb⟩
    · rfl
    · rw [hb] at h
      cases h
  · rcases atomItem_eq_variant b with ⟨mark', rfl⟩ | ⟨content', hb⟩
    · rw [ha] at h
      cases h
    · rw [ha, hb] at h
      exact (variant_inj h).1

theorem literalItem_inj {value other : Literal} (h : literalItem value = literalItem other) :
    value = other := by
  cases value with
  | integer value =>
      cases other with
      | integer other =>
          have hvalue := congrArg asInt64 (variant_inj h).2
          rw [asInt64_ofInt, asInt64_ofInt] at hvalue
          rw [Except.ok.inj hvalue]
      | _ => exact absurd (variant_inj h).1 (by decide)
  | string value =>
      cases other with
      | string other => rw [Item.text.inj (variant_inj h).2]
      | _ => exact absurd (variant_inj h).1 (by decide)
  | symbol name =>
      cases other with
      | symbol other => rw [Item.text.inj (variant_inj h).2]
      | _ => exact absurd (variant_inj h).1 (by decide)
  | boolean value =>
      cases other with
      | boolean other => rw [Item.boolean.inj (variant_inj h).2]
      | _ => exact absurd (variant_inj h).1 (by decide)
  | float value =>
      cases other with
      | float other => rw [Item.float.inj (variant_inj h).2]
      | _ => exact absurd (variant_inj h).1 (by decide)

mutual

theorem sameTerm_of_atomItem_eq : ∀ a b : Atom, atomItem a = atomItem b → SameTerm a b
  | .typeUniverse _, b => fun h => by
      have hkind := kindName_eq h
      cases b with
      | typeUniverse _ => rfl
      | _ => simp [kindName] at hkind
  | .root name _, b => fun h => by
      have hkind := kindName_eq h
      cases b with
      | root name' _ =>
          rw [SameTerm, Like, bare_root, bare_root, Item.text.inj (variant_inj h).2]
      | _ => simp [kindName] at hkind
  | .literal value type _, b => fun h => by
      have hkind := kindName_eq h
      cases b with
      | literal value' type' _ =>
          have hfields := record_inj (variant_inj h).2
          simp only [List.cons.injEq, Prod.mk.injEq, true_and, and_true] at hfields
          rw [SameTerm, Like, bare_literal, bare_literal, literalItem_inj hfields.1,
            sameTerm_of_atomItem_eq type type' hfields.2]
      | _ => simp [kindName] at hkind
  | .var name type guard index _, b => fun h => by
      have hkind := kindName_eq h
      cases b with
      | var name' type' guard' index' _ =>
          have hfields := present_inj (variant_inj h).2 rfl (by simp)
          simp only [List.cons.injEq, Prod.mk.injEq, true_and, and_true, Option.some.injEq,
            Item.text.injEq, Item.unsigned.injEq] at hfields
          rw [SameTerm, Like, bare_var, bare_var, ← optionBare_eq_map,
            ← optionBare_eq_map, hfields.1,
            sameTerm_of_atomItem_eq type type' hfields.2.1,
            optionBare_of_optionItem_eq guard guard' hfields.2.2.1,
            UInt64.toNat_inj.mp hfields.2.2.2]
      | _ => simp [kindName] at hkind
  | .lambda parameter body _, b => fun h => by
      have hkind := kindName_eq h
      cases b with
      | lambda parameter' body' _ =>
          have hfields := record_inj (variant_inj h).2
          simp only [List.cons.injEq, Prod.mk.injEq, true_and, and_true] at hfields
          rw [SameTerm, Like, bare_lambda, bare_lambda,
            sameTerm_of_atomItem_eq parameter parameter' hfields.1,
            sameTerm_of_atomItem_eq body body' hfields.2]
      | _ => simp [kindName] at hkind
  | .sequence ⟨properties, elements⟩ _, b => fun h => by
      have hkind := kindName_eq h
      cases b with
      | sequence s' _ =>
          rcases s' with ⟨properties', elements'⟩
          have hfields := record_inj (variant_inj h).2
          simp only [List.cons.injEq, Prod.mk.injEq, true_and, and_true, Item.list,
            Item.array.injEq] at hfields
          rw [SameTerm, Like, bare, bare,
            propertiesBare_of_propertiesItem_eq properties properties' hfields.1,
            listBare_of_listItems_eq elements elements' hfields.2]
      | _ => simp [kindName] at hkind
  | .propertySet properties _, b => fun h => by
      have hkind := kindName_eq h
      cases b with
      | propertySet properties' _ =>
          rw [SameTerm, Like, bare, bare,
            propertiesBare_of_propertiesItem_eq properties properties' (variant_inj h).2]
      | _ => simp [kindName] at hkind
  | .operator ⟨name, properties, parameters, resultType, native⟩ _, b => fun h => by
      have hkind := kindName_eq h
      cases b with
      | operator op' _ =>
          rcases op' with ⟨name', properties', parameters', resultType', native'⟩
          have hcontent := (variant_inj h).2
          rw [operatorItem, operatorItem] at hcontent
          have hfields := present_inj hcontent rfl (by simp)
          simp only [List.cons.injEq, Prod.mk.injEq, true_and, and_true, Option.some.injEq,
            Item.text.injEq, Item.list, Item.array.injEq] at hfields
          rw [SameTerm, Like, bare, bare, hfields.1,
            propertiesBare_of_propertiesItem_eq properties properties' hfields.2.1,
            listBare_of_listItems_eq parameters parameters' hfields.2.2.1,
            optionBare_of_optionItem_eq resultType resultType' hfields.2.2.2]
      | _ => simp [kindName] at hkind
  | .application head argument _ _, b => fun h => by
      have hkind := kindName_eq h
      cases b with
      | application head' argument' _ _ =>
          have hfields := record_inj (variant_inj h).2
          simp only [List.cons.injEq, Prod.mk.injEq, true_and, and_true] at hfields
          rw [SameTerm, Like, bare_application, bare_application,
            sameTerm_of_atomItem_eq head head' hfields.1,
            sameTerm_of_atomItem_eq argument argument' hfields.2]
      | _ => simp [kindName] at hkind

theorem listBare_of_listItems_eq : ∀ list other : List Atom, listItems list = listItems other →
    listBare (fun _ => none) list = listBare (fun _ => none) other
  | [], [] => fun _ => rfl
  | [], _ :: _ => fun h => by cases h
  | _ :: _, [] => fun h => by cases h
  | atom :: rest, atom' :: rest' => fun h => by
      injection h with hatom hrest
      rw [listBare, listBare, sameTerm_of_atomItem_eq atom atom' hatom,
        listBare_of_listItems_eq rest rest' hrest]

theorem optionBare_of_optionItem_eq : ∀ value other : Option Atom,
    optionItem value = optionItem other →
    optionBare (fun _ => none) value = optionBare (fun _ => none) other
  | none, none => fun _ => rfl
  | none, some _ => fun h => by cases h
  | some _, none => fun h => by cases h
  | some atom, some atom' => fun h => by
      rw [optionBare, optionBare, sameTerm_of_atomItem_eq atom atom' (Option.some.inj h)]

theorem propertiesBare_of_propertiesItem_eq : ∀ properties other : PropertySet Atom,
    propertiesItem properties = propertiesItem other →
    propertiesBare (fun _ => none) properties = propertiesBare (fun _ => none) other
  | ⟨a, c, i, b, d⟩, ⟨a', c', i', b', d'⟩ => fun h => by
      rw [propertiesItem, propertiesItem] at h
      have hfields := present_inj h rfl (by simp)
      simp only [List.cons.injEq, Prod.mk.injEq, true_and, and_true] at hfields
      rw [propertiesBare, propertiesBare, optionBare_of_optionItem_eq a a' hfields.1,
        optionBare_of_optionItem_eq c c' hfields.2.1,
          optionBare_of_optionItem_eq i i' hfields.2.2.1,
        optionBare_of_optionItem_eq b b' hfields.2.2.2.1,
        optionBare_of_optionItem_eq d d' hfields.2.2.2.2]

end

/-!
## Bytes determine items

A reader that opens enough containers finds what was written, whatever follows it.
-/

namespace Item

mutual

theorem clip_of_nesting_le : ∀ (item : Item) (depth : Nat), item.nesting ≤ depth →
    item.clip depth = item
  | array items isCut, depth => fun h => by
      cases depth with
      | zero => exact absurd h (Nat.not_succ_le_zero _)
      | succ depth => rw [clip, listClip_of_nesting_le items depth (Nat.le_of_succ_le_succ h)]
  | map single items isCut, depth => fun h => by
      cases depth with
      | zero => exact absurd h (Nat.not_succ_le_zero _)
      | succ depth => rw [clip, listClip_of_nesting_le items depth (Nat.le_of_succ_le_succ h)]
  | unsigned _, _ | negative _, _ | bytes _, _ | text _, _ | tagged _, _ | boolean _, _ | null, _
  | undefined, _ | float _, _ | broken _, _ => fun _ => clip_of_leaf rfl _

theorem listClip_of_nesting_le : ∀ (items : List Item) (depth : Nat), listNesting items ≤ depth →
    listClip depth items = items
  | [], _ => fun _ => by rw [listClip]
  | item :: rest, depth => fun h => by
      have hle := Nat.max_le.mp h
      rw [listClip, clip_of_nesting_le item depth hle.1, if_pos hle.1,
        listClip_of_nesting_le rest depth hle.2]

end

/-- A reader that opens enough containers finds what was written, whatever its limit is. -/
theorem write_inj {item other : Item} (h : item.Sound) (hother : other.Sound)
    (hlength : item.write.length < Number.twoTo 64) (hwrite : item.write = other.write) :
    item = other := by
  let depth := max item.nesting other.nesting
  let fuel := 2 * item.write.length
  have hread := read_write item h fuel depth 0 [] (by omega) (by omega)
  have hread' := read_write other hother fuel depth 0 []
    (by rw [← hwrite]; omega) (by rw [← hwrite]; omega)
  rw [hwrite, hread', reading, reading] at hread
  have hclip := congrArg Prod.fst hread
  simp only at hclip
  rw [clip_of_nesting_le other depth (Nat.le_max_right _ _),
    clip_of_nesting_le item depth (Nat.le_max_left _ _)] at hclip
  exact hclip.symm

end Item

/-!
## Stored forms are faithful
-/

theorem encode_eq_iff {a b : Atom} (hlength : a.encode.length < Number.twoTo 64) :
    a.encode = b.encode ↔ SameTerm a.quieted b.quieted := by
  rw [← encode_quieted a] at hlength ⊢
  rw [← encode_quieted b]
  constructor
  · exact fun h => sameTerm_of_atomItem_eq _ _ (write_inj (sound_atomItem _ (everywhere_quieted a))
      (sound_atomItem _ (everywhere_quieted b)) hlength h)
  · intro h
    rw [encode, encode, ← @write_atomItem_bare fun _ => none, h, write_atomItem_bare]

/-- An atom is accepted again if it is well made with quiet NaNs and its stored form does not open
too many containers at once; atoms are stored alike exactly if they are one term with quiet NaNs;
so unequal atoms whose NaNs are quiet are told apart. -/
theorem encode_faithful {a b : Atom} (hlength : a.encode.length < Number.twoTo 64) :
    (a.quieted.Built → Atom.decode a.encode =
      if (atomItem a.quieted).nesting ≤ nestingLimit then .ok (a.quieted.bare fun _ => none)
      else .error .syntaxError) ∧
    (a.encode = b.encode ↔ SameTerm a.quieted b.quieted) ∧
    (a.Everywhere Quiet → b.Everywhere Quiet → (a == b) = false → a.encode ≠ b.encode) := by
  have hiff := @encode_eq_iff a b hlength
  refine ⟨fun hbuilt => ?_, hiff, fun ha hb hne hencode => ?_⟩
  · rw [← encode_quieted a] at hlength ⊢
    exact decode_encode_quiet (everywhere_quieted a) hlength hbuilt
  · have hterm := hiff.mp hencode
    rw [quieted_eq_self a ha, quieted_eq_self b hb] at hterm
    rw [hterm.beq] at hne
    cases hne

def nested : Nat → Atom
  | 0 => .sequence ⟨.none, []⟩ .new
  | n + 1 => .sequence ⟨.none, [nested n]⟩ .new

theorem nesting_nested (n : Nat) : (atomItem (nested n)).nesting = 3 * (n + 1) := by
  induction n with
  | zero => rfl
  | succ n ih =>
      change max 0
        (max (max 0 (max 1 (max 0 (max (max (atomItem (nested n)).nesting 0 + 1) 0))) + 1)
        0) + 1 = _
      rw [ih]
      omega

theorem length_encode_nested (n : Nat) : (nested n).encode.length = 20 * (n + 1) := by
  induction n with
  | zero => decide +kernel
  | succ n ih =>
      have hfixed : (head 5 1).length = 1 ∧ (head 5 2).length = 1 ∧ (head 4 1).length = 1 ∧
          (write (text "Seq")).length = 4 ∧ (write (text "props")).length = 6 ∧
          (write (text "atoms")).length = 6 ∧ (write (propertiesItem .none)).length = 1 := by
        decide +kernel
      have hlist : ∀ item : Item, (Item.list [item]).write = head 4 1 ++ (item.write ++ []) :=
        fun _ => rfl
      rw [Atom.encode] at ih
      rw [Atom.encode, nested, atomItem, sequenceItem, listItems, listItems, variant]
      simp only [write_record, hlist, List.flatMap_cons, List.flatMap_nil, List.cons_append,
        List.nil_append, writeList, List.length_cons, List.length_nil, List.length_append,
        Nat.reduceAdd]
      omega

theorem everywhere_nested {p : Atom → Prop} (h : ∀ n, p (nested n)) (n : Nat) :
    (nested n).Everywhere p := by
  induction n with
  | zero => exact everywhere_iff.mpr ⟨h 0, List.forall_mem_nil _⟩
  | succ n ih => exact everywhere_iff.mpr ⟨h (n + 1), List.forall_mem_singleton.mpr ih⟩

theorem built_nested (n : Nat) : (nested n).Built :=
  everywhere_nested (fun n => by cases n <;> exact ⟨rfl, rfl⟩) n

theorem quiet_nested (n : Nat) : (nested n).Everywhere Quiet :=
  everywhere_nested (fun n => by cases n <;> trivial) n

/-- Of sequences in sequences, 42 are accepted and told from 43. -/
theorem encode_faithful_nested :
    (nested 41).encode.length < Number.twoTo 64 ∧
      Atom.decode (nested 41).encode = .ok ((nested 41).bare fun _ => none) ∧
      ¬ SameTerm (nested 41) (nested 42) ∧ (nested 41).encode ≠ (nested 42).encode := by
  have hlength : (nested 41).encode.length < Number.twoTo 64 := by
    rw [length_encode_nested]
    decide
  have hne : (nested 41 == nested 42) = false := by decide +kernel
  rcases @encode_faithful (nested 41) (nested 42) hlength with ⟨haccepted, hiff, hdifferent⟩
  have hencode := hdifferent (quiet_nested 41) (quiet_nested 42) hne
  rw [quieted_eq_self _ (quiet_nested 41)] at haccepted hiff
  rw [quieted_eq_self _ (quiet_nested 42)] at hiff
  refine ⟨hlength, ?_, fun hterm => hencode (hiff.mpr hterm), hencode⟩
  rw [haccepted (built_nested 41), if_pos (by rw [nesting_nested]; decide)]

/-- Of 43 sequences in each other the reader refuses what the writer wrote, and two NaNs of
different bits are written alike. -/
theorem encode_not_faithful :
    (nested 42).Built ∧ (nested 42).Everywhere Quiet ∧
      Atom.decode (nested 42).encode = .error .syntaxError ∧
      (Atom.ofLiteral (.float ⟨0x7FF8000000000001⟩) == Atom.ofLiteral (.float .quietNaN)) = false ∧
      (Atom.ofLiteral (.float ⟨0x7FF8000000000001⟩)).encode =
        (Atom.ofLiteral (.float .quietNaN)).encode := by
  refine ⟨built_nested 42, quiet_nested 42, ?_, by decide +kernel, by decide +kernel⟩
  have hlength : (nested 42).encode.length < Number.twoTo 64 := by
    rw [length_encode_nested]
    decide
  rw [decode_encode_quiet (quiet_nested 42) hlength (built_nested 42),
    if_neg (by rw [nesting_nested]; decide)]

end Cbor

end Equational
