import Equational.Proofs.Bare
import Equational.Proofs.Parts
import Mathlib.Data.List.Nodup

/-!
# Fingerprints tell terms apart

The fingerprint of an atom is the digest of a message: a fixed head, the domain
of its kind, the length of the data, and the data, in which the fingerprints of
its parts stand.  A message can be read in one way only.  So two atoms of one
fingerprint are the same term, unless two different messages that were hashed
for them have the same digest.
-/

namespace Equational

/-!
## Bytes that can be read back

Fields have a fixed width or say how long they are, so a field can be told from what follows it,
and fields of given sorts can be read back from the front of some bytes.
-/

theorem utf8_injective {s t : String} (h : utf8 s = utf8 t) : s = t := by
  have hdata : s.toUTF8.data = t.toUTF8.data := Array.toList_inj.mp h
  exact String.toByteArray_inj.mp (ByteArray.ext hdata)

theorem littleEndian64_injective {n m : UInt64} (h : littleEndian64 n = littleEndian64 m) :
    n = m := by
  have hn := n.toNat_lt
  have hm := m.toNat_lt
  simp only [littleEndian64, List.cons.injEq, and_true, ← UInt8.toNat_inj, UInt64.toNat_toUInt8,
    UInt64.toNat_shiftRight, Nat.shiftRight_eq_div_pow, UInt64.reduceToNat, Nat.reducePow,
    Nat.reduceMod] at h
  rw [← UInt64.toNat_inj]
  omega

theorem toUInt64_injective {n m : Nat} (hn : n < Number.twoTo 64) (hm : m < Number.twoTo 64)
    (h : n.toUInt64 = m.toUInt64) : n = m := by
  have hnat : (UInt64.ofNat n).toNat = (UInt64.ofNat m).toNat := congrArg UInt64.toNat h
  rw [UInt64.toNat_ofNat', UInt64.toNat_ofNat'] at hnat
  exact (Nat.mod_eq_of_lt hn).symm.trans (hnat.trans (Nat.mod_eq_of_lt hm))

namespace Digest

theorem wordBytes_injective {w v : UInt32} (h : wordBytes w = wordBytes v) : w = v := by
  have hw := w.toNat_lt
  have hv := v.toNat_lt
  simp only [wordBytes, List.cons.injEq, and_true, ← UInt8.toNat_inj, UInt32.toNat_toUInt8,
    UInt32.toNat_shiftRight, Nat.shiftRight_eq_div_pow, UInt32.reduceToNat, Nat.reducePow,
    Nat.reduceMod] at h
  rw [← UInt32.toNat_inj]
  omega

theorem bytes_injective {d e : Digest} (h : d.bytes = e.bytes) : d = e := by
  have hwords : ∀ ws vs : List UInt32, ws.length = vs.length →
      ws.flatMap wordBytes = vs.flatMap wordBytes → ws = vs := by
    intro ws
    induction ws with
    | nil => exact fun vs hlength _ => (List.length_eq_zero_iff.mp hlength.symm).symm
    | cons w ws ih =>
        intro vs hlength hbytes
        cases vs with
        | nil => cases hlength
        | cons v vs =>
            rw [List.flatMap_cons, List.flatMap_cons] at hbytes
            rcases List.append_inj hbytes rfl with ⟨hword, hrest⟩
            rw [wordBytes_injective hword, ih vs (by simpa using hlength) hrest]
  have hequal := hwords d.words e.words rfl h
  cases d
  cases e
  simpa [words] using hequal

namespace Field

/-- Two fields of one sort: they differ in their values at most. -/
def SameSort : Field → Field → Prop
  | tag _, tag _ | word _, word _ | bytes _, bytes _ | text _, text _ | digest _, digest _
  | optional _, optional _ => True
  | _, _ => False

/-- What is counted in a field has a count of 64 bits. -/
def Short : Field → Prop
  | bytes value => value.length < Number.twoTo 64
  | text value => (utf8 value).length < Number.twoTo 64
  | _ => True

instance : DecidablePred Short
  | bytes _ | text _ => Nat.decLt _ _
  | tag _ | word _ | digest _ | optional _ => .isTrue trivial

theorem counted_append_inj {value other rest tail : List UInt8}
    (hvalue : value.length < Number.twoTo 64)
    (hother : other.length < Number.twoTo 64) (h : counted value ++ rest = counted other ++ tail) :
    value = other ∧ rest = tail := by
  rw [counted, counted, List.append_assoc, List.append_assoc] at h
  rcases List.append_inj h rfl with ⟨hcount, hbytes⟩
  exact List.append_inj hbytes (toUInt64_injective hvalue hother (littleEndian64_injective hcount))

theorem encode_append_inj {field other : Field} {rest tail : List UInt8}
    (hsort : field.SameSort other) (hfield : field.Short) (hother : other.Short)
    (h : field.encode ++ rest = other.encode ++ tail) : field = other ∧ rest = tail := by
  cases field with
  | tag value =>
      cases other with
      | tag value' =>
          rcases List.append_inj h rfl with ⟨hvalue, hrest⟩
          exact ⟨congrArg tag (List.singleton_inj.mp hvalue), hrest⟩
      | _ => cases hsort
  | word value =>
      cases other with
      | word value' =>
          rcases List.append_inj h rfl with ⟨hvalue, hrest⟩
          exact ⟨congrArg word (littleEndian64_injective hvalue), hrest⟩
      | _ => cases hsort
  | bytes value =>
      cases other with
      | bytes value' =>
          rcases counted_append_inj hfield hother h with ⟨hvalue, hrest⟩
          exact ⟨congrArg bytes hvalue, hrest⟩
      | _ => cases hsort
  | text value =>
      cases other with
      | text value' =>
          rcases counted_append_inj hfield hother h with ⟨hvalue, hrest⟩
          exact ⟨congrArg text (utf8_injective hvalue), hrest⟩
      | _ => cases hsort
  | digest value =>
      cases other with
      | digest value' =>
          rcases List.append_inj h rfl with ⟨hvalue, hrest⟩
          exact ⟨congrArg digest (bytes_injective hvalue), hrest⟩
      | _ => cases hsort
  | optional value =>
      cases other with
      | optional value' =>
          cases value with
          | none =>
              cases value' with
              | none => exact ⟨rfl, (List.cons.inj h).2⟩
              | some d => exact absurd (List.cons.inj h).1 (by decide)
          | some d =>
              cases value' with
              | none => exact absurd (List.cons.inj h).1 (by decide)
              | some e =>
                  rcases List.append_inj (List.cons.inj h).2 rfl with ⟨hvalue, hrest⟩
                  exact ⟨congrArg (fun d => optional (some d)) (bytes_injective hvalue), hrest⟩
      | _ => cases hsort

theorem eq_of_flatMap_encode_append {fields others : List Field} {rest tail : List UInt8}
    (hsorts : List.Forall₂ SameSort fields others) (hfields : ∀ field ∈ fields, field.Short)
    (hothers : ∀ field ∈ others, field.Short)
    (h : fields.flatMap encode ++ rest = others.flatMap encode ++ tail) :
    fields = others ∧ rest = tail := by
  induction hsorts with
  | nil => exact ⟨rfl, h⟩
  | cons hsort _ ih =>
      rw [List.flatMap_cons, List.flatMap_cons, List.append_assoc, List.append_assoc] at h
      rw [List.forall_mem_cons] at hfields hothers
      rcases encode_append_inj hsort hfields.1 hothers.1 h with ⟨hfirst, hbytes⟩
      rcases ih hfields.2 hothers.2 hbytes with ⟨hfields, hrest⟩
      exact ⟨by rw [hfirst, hfields], hrest⟩

end Field

/-!
## Messages

No domain is the beginning of another one with what follows it, so a message tells its domain and
its data.
-/

def domains : List (List UInt8) :=
  [utf8 "TYPE_UNIVERSE_V0", utf8 "ROOT_TYPE_V0", utf8 "LITERAL_V0", utf8 "VARIABLE_V0",
    utf8 "LAMBDA_V0", utf8 "SEQUENCE_V0", utf8 "ALGPROP_V0", utf8 "OPERATOR_V0", utf8 "APPLY_V0"]

/-- Nothing follows a domain that could make it look like another one: their first two bytes
differ. -/
theorem take_two_domains : (domains.map (·.take 2)).Nodup ∧ ∀ d ∈ domains, 2 ≤ d.length := by
  decide +kernel

theorem eq_of_append_domains {domain other rest tail : List UInt8} (hdomain : domain ∈ domains)
    (hother : other ∈ domains) (h : domain ++ rest = other ++ tail) : domain = other := by
  rcases take_two_domains with ⟨hnodup, hlength⟩
  have htake := congrArg (List.take 2) h
  rw [List.take_append_of_le_length (hlength domain hdomain),
    List.take_append_of_le_length (hlength other hother)] at htake
  exact List.inj_on_of_nodup_map hnodup hdomain hother htake

/-- A domain with the fields that are hashed under it. -/
structure Layout where
  domain : List UInt8
  fields : List Field

namespace Layout

def data (layout : Layout) : List UInt8 := layout.fields.flatMap Field.encode

def message (layout : Layout) : List UInt8 :=
  utf8 "ACT:" ++ layout.domain ++ utf8 ":v1" ++ littleEndian64 layout.data.length.toUInt64
    ++ layout.data

theorem ofFields_eq (layout : Layout) :
    ofFields layout.domain layout.fields = sha256 layout.message := rfl

theorem message_inj {layout other : Layout} (hlayout : layout.domain ∈ domains)
    (hother : other.domain ∈ domains) (h : layout.message = other.message) :
    layout.domain = other.domain ∧ layout.data = other.data := by
  simp only [message, List.append_assoc] at h
  have hbody := List.append_cancel_left h
  have hdomain := eq_of_append_domains hlayout hother hbody
  rw [hdomain] at hbody
  have hcounted := List.append_cancel_left (List.append_cancel_left hbody)
  exact ⟨hdomain, (List.append_inj hcounted rfl).2⟩

/-- A layout of which every count is one of 64 bits, as the length of a string or of a list in a
machine is. -/
structure Counted (layout : Layout) : Prop where
  short : ∀ field ∈ layout.fields, field.Short
  few : layout.fields.length < Number.twoTo 64

instance (layout : Layout) : Decidable layout.Counted :=
  decidable_of_iff ((∀ field ∈ layout.fields, field.Short) ∧ layout.fields.length < Number.twoTo 64)
    ⟨fun h => ⟨h.1, h.2⟩, fun h => ⟨h.short, h.few⟩⟩

/-- Two layouts of one message. -/
structure Agree (layout other : Layout) : Prop where
  domain : layout.domain = other.domain
  data : layout.data = other.data
  counted : layout.Counted
  counted' : other.Counted

namespace Agree

variable {layout other : Layout}

theorem front_eq (h : layout.Agree other) {front front' rest rest' : List Field}
    (hfields : layout.fields = front ++ rest) (hothers : other.fields = front' ++ rest')
    (hsorts : List.Forall₂ Field.SameSort front front') : front = front' := by
  have hdata : (front ++ rest).flatMap Field.encode = (front' ++ rest').flatMap Field.encode := by
    rw [← hfields, ← hothers]
    exact h.data
  rw [List.flatMap_append, List.flatMap_append] at hdata
  refine (Field.eq_of_flatMap_encode_append hsorts ?_ ?_ hdata).1
  · intro field hfield
    exact h.counted.short field (hfields ▸ List.mem_append_left _ hfield)
  · intro field hfield
    exact h.counted'.short field (hothers ▸ List.mem_append_left _ hfield)

theorem fields_eq (h : layout.Agree other)
    (hsorts : List.Forall₂ Field.SameSort layout.fields other.fields) :
    layout.fields = other.fields :=
  h.front_eq (List.append_nil _).symm (List.append_nil _).symm hsorts

end Agree

end Layout

end Digest

/-!
## What is hashed for an atom
-/

def PropertySet.layout (properties : Properties) : Digest.Layout :=
  ⟨utf8 "ALGPROP_V0", Law.all.map fun law => .optional ((properties.get law).map Atom.fingerprint)⟩

namespace Atom

/-- What the fingerprint of an atom is the digest of. -/
def layout : Atom → Digest.Layout
  | typeUniverse _ => ⟨utf8 "TYPE_UNIVERSE_V0", []⟩
  | root name _ => ⟨utf8 "ROOT_TYPE_V0", [.text name]⟩
  | literal value type _ => ⟨utf8 "LITERAL_V0", value.fields ++ [.digest type.fingerprint]⟩
  | var name type guard index _ =>
    ⟨utf8 "VARIABLE_V0", [.word index, .text name, .digest type.fingerprint,
      .optional (guard.map fingerprint)]⟩
  | lambda parameter body _ =>
    ⟨utf8 "LAMBDA_V0", [.digest parameter.fingerprint, .digest body.fingerprint]⟩
  | sequence s _ =>
    ⟨utf8 "SEQUENCE_V0", .digest s.properties.fingerprint :: .word s.elements.length.toUInt64
      :: s.elements.map fun atom => .digest atom.fingerprint⟩
  | propertySet properties _ => properties.layout
  | operator op _ =>
    ⟨utf8 "OPERATOR_V0", .text op.name :: .digest op.properties.fingerprint
      :: .word op.parameters.length.toUInt64
      :: (op.parameters.map fun atom => .digest atom.fingerprint)
      ++ [.optional (op.resultType.map fingerprint)]⟩
  | application head argument _ _ =>
    ⟨utf8 "APPLY_V0", [.digest head.fingerprint, .digest argument.fingerprint]⟩

theorem listFingerprints_eq_map (list : List Atom) :
    listFingerprints list = list.map fingerprint := by
  induction list with
  | nil => rfl
  | cons atom rest ih => rw [listFingerprints, ih, List.map_cons]

theorem optionFingerprint_eq_map (value : Option Atom) :
    optionFingerprint value = value.map fingerprint := by
  cases value <;> rfl

end Atom

theorem PropertySet.fingerprint_eq_sha256 (properties : Properties) :
    properties.fingerprint = sha256 properties.layout.message := by
  rcases properties with ⟨a, c, i, b, d⟩
  rw [← Digest.Layout.ofFields_eq]
  simp [PropertySet.fingerprint, Atom.propertiesFingerprint, layout, Law.all, get,
    Atom.optionFingerprint_eq_map]

namespace Atom

theorem fingerprint_eq_sha256 (atom : Atom) : atom.fingerprint = sha256 atom.layout.message := by
  rw [← Digest.Layout.ofFields_eq]
  cases atom with
  | var name type guard index mark => simp [fingerprint, layout, optionFingerprint_eq_map]
  | sequence s mark =>
      rcases s with ⟨properties, elements⟩
      simp [fingerprint, layout, listFingerprints_eq_map, PropertySet.fingerprint]
      rfl
  | propertySet properties mark =>
      rw [Digest.Layout.ofFields_eq]
      exact properties.fingerprint_eq_sha256
  | operator op mark =>
      rcases op with ⟨name, properties, parameters, resultType, native⟩
      simp [fingerprint, operatorFingerprint, layout, listFingerprints_eq_map,
        optionFingerprint_eq_map, PropertySet.fingerprint]
      rfl
  | _ => rfl

/-- The layouts that are hashed for an atom itself.  A sequence and an operator hash their property
set apart. -/
def ownLayouts (atom : Atom) : List Digest.Layout :=
  atom.layout :: match atom with
    | sequence s _ => [s.properties.layout]
    | operator op _ => [op.properties.layout]
    | _ => []

/-- What is hashed on the way to the fingerprint of an atom: its own layouts and those of its
parts. -/
def hashed : Atom → List Digest.Layout := gather (fun _ _ => true) ownLayouts

variable {atom : Atom}

theorem layout_mem_hashed (atom : Atom) : atom.layout ∈ atom.hashed :=
  mem_gather.mpr (.inl List.mem_cons_self)

theorem properties_layout_mem_hashed_sequence {s : Sequence Atom} {mark : Mark} :
    s.properties.layout ∈ (sequence s mark).hashed :=
  mem_gather.mpr (.inl (by simp [ownLayouts]))

theorem properties_layout_mem_hashed_operator {op : Operator Atom} {mark : Mark} :
    op.properties.layout ∈ (operator op mark).hashed :=
  mem_gather.mpr (.inl (by simp [ownLayouts]))

theorem hashed_subset_of_mem_parts {part : Role × Atom} (hpart : part ∈ atom.parts) :
    part.2.hashed ⊆ atom.hashed :=
  fun _ hlayout => mem_gather.mpr (.inr ⟨part, hpart, rfl, hlayout⟩)

end Atom

/-!
## Equal digests
-/

/-- Between the messages of some layouts and of others the hash has no collision: one digest, one
byte string. -/
def CollisionFree (layouts others : List Digest.Layout) : Prop :=
  ∀ x ∈ layouts, ∀ y ∈ others, sha256 x.message = sha256 y.message → x.message = y.message

/-- Layouts whose counts hold, and which can be told from others by their digests. -/
structure Distinguished (layouts others : List Digest.Layout) : Prop where
  counted : ∀ x ∈ layouts, x.Counted
  counted' : ∀ x ∈ others, x.Counted
  free : CollisionFree layouts others

theorem Distinguished.mono {layouts others parts parts' : List Digest.Layout}
    (h : Distinguished layouts others) (hparts : parts ⊆ layouts) (hparts' : parts' ⊆ others) :
    Distinguished parts parts' where
  counted := fun x hx => h.counted x (hparts hx)
  counted' := fun x hx => h.counted' x (hparts' hx)
  free := fun x hx y hy => h.free x (hparts hx) y (hparts' hy)

namespace Atom

/-!
## Atoms of one fingerprint

The domain tells the kind.  Then the fields in front are of the same sorts, and the values in them
tell how many fields there are, and of which sorts the others are.
-/

def kind : Atom → Nat
  | typeUniverse _ => 0
  | root .. => 1
  | literal .. => 2
  | var .. => 3
  | lambda .. => 4
  | sequence .. => 5
  | propertySet .. => 6
  | operator .. => 7
  | application .. => 8

theorem getElem?_domains (atom : Atom) : Digest.domains[atom.kind]? = some atom.layout.domain := by
  cases atom <;> rfl

theorem domain_mem_domains (atom : Atom) : atom.layout.domain ∈ Digest.domains :=
  List.mem_of_getElem? atom.getElem?_domains

variable {a b : Atom}

theorem kind_eq (h : a.layout.domain = b.layout.domain) : a.kind = b.kind := by
  have hnodup : Digest.domains.Nodup := Digest.take_two_domains.1.of_map _
  have hlength : a.kind < Digest.domains.length :=
    (List.getElem?_eq_some_iff.mp a.getElem?_domains).1
  apply (List.getElem?_inj hlength hnodup).mp
  rw [getElem?_domains, getElem?_domains, h]

theorem layout_agree (h : Distinguished a.hashed b.hashed)
    (hequal : a.fingerprint = b.fingerprint) :
    a.layout.Agree b.layout := by
  rw [fingerprint_eq_sha256, fingerprint_eq_sha256] at hequal
  have hmessage := h.free _ a.layout_mem_hashed _ b.layout_mem_hashed hequal
  rcases Digest.Layout.message_inj a.domain_mem_domains b.domain_mem_domains hmessage with
    ⟨hdomain, hdata⟩
  exact ⟨hdomain, hdata, h.counted _ a.layout_mem_hashed, h.counted' _ b.layout_mem_hashed⟩

theorem properties_agree {layouts others : List Digest.Layout} (h : Distinguished layouts others)
    {properties other : Properties} (hmem : properties.layout ∈ layouts)
    (hmem' : other.layout ∈ others) (hequal : properties.fingerprint = other.fingerprint) :
    properties.layout.Agree other.layout := by
  rw [PropertySet.fingerprint_eq_sha256, PropertySet.fingerprint_eq_sha256] at hequal
  have hmessage := h.free _ hmem _ hmem' hequal
  have hdomain (s : Properties) : s.layout.domain ∈ Digest.domains :=
    (propertySet s .new).domain_mem_domains
  rcases Digest.Layout.message_inj (hdomain properties) (hdomain other) hmessage with
    ⟨hdomain, hdata⟩
  exact ⟨hdomain, hdata, h.counted _ hmem, h.counted' _ hmem'⟩

theorem sameSort_digests {list other : List Atom} (h : list.length = other.length) :
    List.Forall₂ Digest.Field.SameSort (list.map fun atom => .digest atom.fingerprint)
      (other.map fun atom => .digest atom.fingerprint) := by
  rw [List.forall₂_map_left_iff, List.forall₂_map_right_iff]
  exact List.forall₂_iff_zip.mpr ⟨h, fun _ => trivial⟩

theorem map_fingerprint_of_digests {list other : List Atom}
    (h : (list.map fun atom => Digest.Field.digest atom.fingerprint) =
      other.map fun atom => .digest atom.fingerprint) :
    list.map fingerprint = other.map fingerprint := by
  have hdigest : Function.Injective Digest.Field.digest := fun _ _ => Digest.Field.digest.inj
  apply hdigest.list_map
  rw [List.map_map, List.map_map]
  exact h

end Atom

namespace Literal

def sortTag : Literal → UInt8
  | integer _ => 0
  | string _ => 1
  | symbol _ => 2
  | boolean _ => 3
  | float _ => 4

def valueField : Literal → Digest.Field
  | integer value => .word value.toUInt64
  | string value => .text value
  | symbol name => .text name
  | boolean value => .tag value.toUInt8
  | float value => .word value.bits

theorem fields_eq (value : Literal) : value.fields = [.tag value.sortTag, value.valueField] := by
  cases value <;> rfl

theorem eq_of_valueField {value other : Literal} (htag : value.sortTag = other.sortTag)
    (hvalue : value.valueField = other.valueField) : value = other := by
  cases value with
  | integer i =>
      cases other with
      | integer j => exact congrArg (integer ∘ UInt64.toInt64) (Digest.Field.word.inj hvalue)
      | _ => cases htag
  | string s =>
      cases other with
      | string t => exact congrArg string (Digest.Field.text.inj hvalue)
      | _ => cases htag
  | symbol s =>
      cases other with
      | symbol t => exact congrArg symbol (Digest.Field.text.inj hvalue)
      | _ => cases htag
  | boolean p =>
      cases other with
      | boolean q => cases p <;> cases q <;> first | rfl | cases Digest.Field.tag.inj hvalue
      | _ => cases htag
  | float x =>
      cases other with
      | float y => exact congrArg float (congrArg Number.Binary64.mk (Digest.Field.word.inj hvalue))
      | _ => cases htag

theorem sameSort_valueField {value other : Literal} (htag : value.sortTag = other.sortTag) :
    value.valueField.SameSort other.valueField := by
  cases value <;> cases other <;> first | trivial | cases htag

theorem eq_of_agree {value other : Literal} {d e : Digest}
    (h : Digest.Layout.Agree ⟨utf8 "LITERAL_V0", value.fields ++ [.digest d]⟩
      ⟨utf8 "LITERAL_V0", other.fields ++ [.digest e]⟩) : value = other ∧ d = e := by
  rw [fields_eq, fields_eq] at h
  have htags : [Digest.Field.tag value.sortTag] = [.tag other.sortTag] :=
    h.front_eq rfl rfl (.cons trivial .nil)
  have htag := Digest.Field.tag.inj (List.singleton_inj.mp htags)
  have hfields := h.fields_eq
    (.cons trivial (.cons (sameSort_valueField htag) (.cons trivial .nil)))
  simp only [List.cons_append, List.nil_append, List.cons.injEq, Digest.Field.digest.injEq,
    and_true] at hfields
  exact ⟨eq_of_valueField htag hfields.2.1, hfields.2.2⟩

end Literal

namespace PropertySet

theorem map_fingerprint_get_of_agree {properties other : Properties}
    (h : properties.layout.Agree other.layout) (law : Law) :
    (properties.get law).map Atom.fingerprint = (other.get law).map Atom.fingerprint := by
  have hfields := h.fields_eq
    (.cons trivial (.cons trivial (.cons trivial (.cons trivial (.cons trivial .nil)))))
  rw [layout, layout, List.map_inj_left] at hfields
  exact Digest.Field.optional.inj (hfields law (by cases law <;> decide))

end PropertySet

namespace Atom

theorem sequence_of_agree {s other : Sequence Atom} {mark mark' : Mark}
    (h : (sequence s mark).layout.Agree (sequence other mark').layout) :
    s.properties.fingerprint = other.properties.fingerprint ∧
      s.elements.map fingerprint = other.elements.map fingerprint := by
  have hfront := h.front_eq (show _ = [_, _] ++ _ from rfl) (show _ = [_, _] ++ _ from rfl)
    (.cons trivial (.cons trivial .nil))
  simp only [List.cons.injEq, Digest.Field.digest.injEq, Digest.Field.word.injEq,
    and_true] at hfront
  have hshort := And.intro h.counted.few h.counted'.few
  simp only [layout, List.length_cons, List.length_map] at hshort
  have hlength := toUInt64_injective (by omega) (by omega) hfront.2
  have hfields := h.fields_eq (.cons trivial (.cons trivial (sameSort_digests hlength)))
  simp only [layout, List.cons.injEq] at hfields
  exact ⟨hfront.1, map_fingerprint_of_digests hfields.2.2⟩

theorem operator_of_agree {op other : Operator Atom} {mark mark' : Mark}
    (h : (operator op mark).layout.Agree (operator other mark').layout) :
    op.name = other.name ∧ op.properties.fingerprint = other.properties.fingerprint ∧
      op.parameters.map fingerprint = other.parameters.map fingerprint ∧
      op.resultType.map fingerprint = other.resultType.map fingerprint := by
  have hfront := h.front_eq (show _ = [_, _, _] ++ _ from rfl) (show _ = [_, _, _] ++ _ from rfl)
    (.cons trivial (.cons trivial (.cons trivial .nil)))
  simp only [List.cons.injEq, Digest.Field.text.injEq, Digest.Field.digest.injEq,
    Digest.Field.word.injEq, and_true] at hfront
  have hshort := And.intro h.counted.few h.counted'.few
  simp only [layout, List.length_cons, List.length_append, List.length_map] at hshort
  have hlength := toUInt64_injective (by omega) (by omega) hfront.2.2
  have hfields := h.fields_eq (.cons trivial (.cons trivial (.cons trivial
    (List.rel_append (sameSort_digests hlength) (.cons trivial .nil)))))
  simp only [layout, List.cons_append, List.cons.injEq] at hfields
  rcases List.append_inj hfields.2.2.2 (by simp [hlength]) with ⟨hparameters, hresult⟩
  simp only [List.cons.injEq, Digest.Field.optional.injEq, and_true] at hresult
  exact ⟨hfront.1, hfront.2.1, map_fingerprint_of_digests hparameters, hresult⟩

/-!
## Terms from fingerprints

Each kind is told from its message, once the parts are told from their
fingerprints.
-/

/-- Some atoms are the same terms as others as soon as they have the same fingerprints. -/
def ToldApart (list others : List Atom) : Prop :=
  ∀ atom ∈ list, ∀ other ∈ others, atom.fingerprint = other.fingerprint → SameTerm atom other

theorem ToldApart.mono {list others part parts : List Atom} (h : ToldApart list others)
    (hpart : part ⊆ list) (hparts : parts ⊆ others) : ToldApart part parts :=
  fun atom hatom other hother => h atom (hpart hatom) other (hparts hother)

theorem ToldApart.list {list others : List Atom} (h : ToldApart list others)
    (hequal : list.map fingerprint = others.map fingerprint) :
    list.map (bare fun _ => none) = others.map (bare fun _ => none) := by
  induction list generalizing others with
  | nil => rw [List.map_eq_nil_iff.mp hequal.symm]
  | cons atom rest ih =>
      cases others with
      | nil => cases hequal
      | cons other others =>
          rw [List.map_cons, List.map_cons] at hequal
          injection hequal with hfirst hrest
          have hatom := h atom List.mem_cons_self other List.mem_cons_self hfirst
          have hothers := ih (h.mono (List.subset_cons_self _ _) (List.subset_cons_self _ _)) hrest
          rw [List.map_cons, List.map_cons, hatom, hothers]

theorem ToldApart.option {value other : Option Atom} (h : ToldApart value.toList other.toList)
    (hequal : value.map fingerprint = other.map fingerprint) :
    value.map (bare fun _ => none) = other.map (bare fun _ => none) := by
  cases value with
  | none => rw [Option.map_eq_none_iff.mp hequal.symm]
  | some a =>
      cases other with
      | none => cases hequal
      | some b =>
          have hsame := h a List.mem_cons_self b List.mem_cons_self (Option.some.inj hequal)
          exact congrArg some hsame

theorem ToldApart.properties {properties other : Properties}
    (h : ToldApart properties.values other.values) (hagree : properties.layout.Agree other.layout) :
    properties.bare (fun _ => none) = other.bare fun _ => none := by
  apply PropertySet.eq_of_get_eq
  intro law
  rw [PropertySet.get_bare, PropertySet.get_bare]
  have hlaw := PropertySet.map_fingerprint_get_of_agree hagree law
  refine ToldApart.option (h.mono (fun value hvalue => ?_) fun value hvalue => ?_) hlaw
  · exact PropertySet.mem_values.mpr ⟨law, Option.mem_toList.mp hvalue⟩
  · exact PropertySet.mem_values.mpr ⟨law, Option.mem_toList.mp hvalue⟩

section Kinds

variable {mark mark' : Mark}

theorem sameTerm_root_of_agree {name name' : String}
    (hagree : (root name mark).layout.Agree (root name' mark').layout) :
    SameTerm (root name mark) (root name' mark') := by
  have hfields := hagree.fields_eq (.cons trivial .nil)
  rw [SameTerm, Like, bare_root, bare_root, Digest.Field.text.inj (List.singleton_inj.mp hfields)]

theorem sameTerm_literal_of_agree {value value' : Literal} {type type' : Atom}
    (hagree : (literal value type mark).layout.Agree (literal value' type' mark').layout)
    (htype : type.fingerprint = type'.fingerprint → SameTerm type type') :
    SameTerm (literal value type mark) (literal value' type' mark') := by
  rcases Literal.eq_of_agree hagree with ⟨hvalue, hequal⟩
  rw [SameTerm, Like, bare_literal, bare_literal, hvalue, htype hequal]

theorem sameTerm_var_of_agree {name name' : String} {type type' : Atom} {guard guard' : Option Atom}
    {index index' : UInt64}
    (hagree : (var name type guard index mark).layout.Agree
      (var name' type' guard' index' mark').layout)
    (htype : type.fingerprint = type'.fingerprint → SameTerm type type')
    (hguard : ToldApart guard.toList guard'.toList) :
    SameTerm (var name type guard index mark) (var name' type' guard' index' mark') := by
  have hfields := hagree.fields_eq
    (.cons trivial (.cons trivial (.cons trivial (.cons trivial .nil))))
  simp only [layout, List.cons.injEq, Digest.Field.word.injEq, Digest.Field.text.injEq,
    Digest.Field.digest.injEq, Digest.Field.optional.injEq, and_true] at hfields
  rcases hfields with ⟨hindex, hname, hequal, hequals⟩
  rw [SameTerm, Like, bare_var, bare_var, hname, hindex, htype hequal, hguard.option hequals]

theorem sameTerm_lambda_of_agree {parameter parameter' body body' : Atom}
    (hagree : (lambda parameter body mark).layout.Agree (lambda parameter' body' mark').layout)
    (hparameter : parameter.fingerprint = parameter'.fingerprint → SameTerm parameter parameter')
    (hbody : body.fingerprint = body'.fingerprint → SameTerm body body') :
    SameTerm (lambda parameter body mark) (lambda parameter' body' mark') := by
  have hfields := hagree.fields_eq (.cons trivial (.cons trivial .nil))
  simp only [layout, List.cons.injEq, Digest.Field.digest.injEq, and_true] at hfields
  rw [SameTerm, Like, bare_lambda, bare_lambda, hparameter hfields.1, hbody hfields.2]

theorem sameTerm_application_of_agree {head head' argument argument' : Atom}
    {bound bound' : Bindings}
    (hagree : (application head argument bound mark).layout.Agree
      (application head' argument' bound' mark').layout)
    (hhead : head.fingerprint = head'.fingerprint → SameTerm head head')
    (hargument : argument.fingerprint = argument'.fingerprint → SameTerm argument argument') :
    SameTerm (application head argument bound mark)
      (application head' argument' bound' mark') := by
  have hfields := hagree.fields_eq (.cons trivial (.cons trivial .nil))
  simp only [layout, List.cons.injEq, Digest.Field.digest.injEq, and_true] at hfields
  rw [SameTerm, Like, bare_application, bare_application, hhead hfields.1, hargument hfields.2]

theorem sameTerm_sequence_of_agree {s other : Sequence Atom}
    (hagree : (sequence s mark).layout.Agree (sequence other mark').layout)
    (hlaws : s.properties.fingerprint = other.properties.fingerprint →
      s.properties.layout.Agree other.properties.layout)
    (hvalues : ToldApart s.properties.values other.properties.values)
    (helements : ToldApart s.elements other.elements) :
    SameTerm (sequence s mark) (sequence other mark') := by
  rcases sequence_of_agree hagree with ⟨hproperties, hequal⟩
  rw [SameTerm, Like, bare_sequence, bare_sequence, Sequence.bare, Sequence.bare,
    hvalues.properties (hlaws hproperties), helements.list hequal]

theorem sameTerm_operator_of_agree {op other : Operator Atom}
    (hagree : (operator op mark).layout.Agree (operator other mark').layout)
    (hlaws : op.properties.fingerprint = other.properties.fingerprint →
      op.properties.layout.Agree other.properties.layout)
    (hvalues : ToldApart op.properties.values other.properties.values)
    (hparameters : ToldApart op.parameters other.parameters)
    (hresult : ToldApart op.resultType.toList other.resultType.toList) :
    SameTerm (operator op mark) (operator other mark') := by
  rcases operator_of_agree hagree with ⟨hname, hproperties, hequal, hequals⟩
  rw [SameTerm, Like, bare_operator, bare_operator, Operator.bare, Operator.bare, hname,
    hvalues.properties (hlaws hproperties), hparameters.list hequal, hresult.option hequals]

end Kinds

/-- Atoms of one fingerprint are the same term, if digests tell what was hashed for them. -/
theorem sameTerm_of_fingerprint (a b : Atom) (h : Distinguished a.hashed b.hashed)
    (hequal : a.fingerprint = b.fingerprint) : SameTerm a b := by
  induction a using parts_induction generalizing b with
  | step a ih =>
      have hagree := layout_agree h hequal
      have hkind := kind_eq hagree.domain
      have hparts : ToldApart (a.parts.map Prod.snd) (b.parts.map Prod.snd) := by
        simp only [ToldApart, List.forall_mem_map]
        exact fun part hpart part' hpart' => ih part hpart part'.2
          (h.mono (hashed_subset_of_mem_parts hpart) (hashed_subset_of_mem_parts hpart'))
      have hsnd (role : Role) : Prod.snd ∘ Prod.mk role = (id : Atom → Atom) := rfl
      cases a with
      | typeUniverse mark =>
          cases b with
          | typeUniverse mark' => rfl
          | _ => cases hkind
      | root name mark =>
          cases b with
          | root name' mark' => exact sameTerm_root_of_agree hagree
          | _ => cases hkind
      | literal value type mark =>
          cases b with
          | literal value' type' mark' =>
              exact sameTerm_literal_of_agree hagree
                (hparts _ (by simp [parts]) _ (by simp [parts]))
          | _ => cases hkind
      | var name type guard index mark =>
          cases b with
          | var name' type' guard' index' mark' =>
              exact sameTerm_var_of_agree hagree (hparts _ (by simp [parts]) _ (by simp [parts]))
                (hparts.mono (by simp [parts, hsnd]) (by simp [parts, hsnd]))
          | _ => cases hkind
      | lambda parameter body mark =>
          cases b with
          | lambda parameter' body' mark' =>
              exact sameTerm_lambda_of_agree hagree (hparts _ (by simp [parts]) _ (by simp [parts]))
                (hparts _ (by simp [parts]) _ (by simp [parts]))
          | _ => cases hkind
      | sequence s mark =>
          cases b with
          | sequence other mark' =>
              have hlaws := properties_agree h properties_layout_mem_hashed_sequence
                properties_layout_mem_hashed_sequence
              exact sameTerm_sequence_of_agree hagree hlaws
                (hparts.mono (by simp [parts, hsnd]) (by simp [parts, hsnd]))
                (hparts.mono (by simp [parts, hsnd]) (by simp [parts, hsnd]))
          | _ => cases hkind
      | propertySet properties mark =>
          cases b with
          | propertySet other mark' =>
              have hvalues : ToldApart properties.values other.values :=
                hparts.mono (by simp [parts, hsnd]) (by simp [parts, hsnd])
              rw [SameTerm, Like, bare_propertySet, bare_propertySet, hvalues.properties hagree]
          | _ => cases hkind
      | operator op mark =>
          cases b with
          | operator other mark' =>
              have hlaws := properties_agree h properties_layout_mem_hashed_operator
                properties_layout_mem_hashed_operator
              exact sameTerm_operator_of_agree hagree hlaws
                (hparts.mono (by simp [parts, hsnd]) (by simp [parts, hsnd]))
                (hparts.mono (by simp [parts, hsnd]) (by simp [parts, hsnd]))
                (hparts.mono (by simp [parts, hsnd]) (by simp [parts, hsnd]))
          | _ => cases hkind
      | application head argument bound mark =>
          cases b with
          | application head' argument' bound' mark' =>
              exact sameTerm_application_of_agree hagree
                (hparts _ (by simp [parts]) _ (by simp [parts]))
                (hparts _ (by simp [parts]) _ (by simp [parts]))
          | _ => cases hkind

/-!
## Equality and structure
-/

/-- Equality is structural identity.  The same terms, up to native evaluations and stored
parameters, are equal; equal atoms are the same term, or two different byte strings that were
hashed for them have one digest. -/
theorem beq_structural (a b : Atom) :
    (SameTerm a b → (a == b) = true) ∧
      ((∀ x ∈ a.hashed, x.Counted) → (∀ x ∈ b.hashed, x.Counted) → (a == b) = true →
        SameTerm a b ∨
          ∃ x ∈ a.hashed, ∃ y ∈ b.hashed,
            x.message ≠ y.message ∧ sha256 x.message = sha256 y.message) := by
  constructor
  · exact Like.beq
  · intro ha hb hequal
    by_cases hfree : CollisionFree a.hashed b.hashed
    · exact .inl (sameTerm_of_fingerprint a b ⟨ha, hb, hfree⟩ ((beq_iff a b).mp hequal).2)
    · right
      simp only [CollisionFree, not_forall] at hfree
      rcases hfree with ⟨x, hx, y, hy, hdigest, hmessage⟩
      exact ⟨x, hx, y, hy, hmessage, hdigest⟩

/-- The successor of a number, with or without a native evaluation. -/
def successor (native : Option String) (bound : Bindings) : Atom :=
  application (operator ⟨"SUCC", .none, [free "x" any], some any, native⟩ .new)
    (sequence ⟨.none, [integer 1]⟩ .new) bound .new

theorem beq_structural_successor :
    let evaluated := successor (some "ADD") (.ofList [("x", integer 1)])
    let plain := successor none .empty
    (evaluated == plain) = true ∧
      (SameTerm evaluated plain ∨
        ∃ x ∈ evaluated.hashed, ∃ y ∈ plain.hashed,
          x.message ≠ y.message ∧ sha256 x.message = sha256 y.message) := by
  intro evaluated plain
  have hsame : SameTerm evaluated plain := rfl
  have hequal := (beq_structural evaluated plain).1 hsame
  have hcounted : ∀ x ∈ evaluated.hashed, x.Counted := by decide +kernel
  have hcounted' : ∀ x ∈ plain.hashed, x.Counted := by decide +kernel
  exact ⟨hequal, (beq_structural evaluated plain).2 hcounted hcounted' hequal⟩

end Atom

end Equational
