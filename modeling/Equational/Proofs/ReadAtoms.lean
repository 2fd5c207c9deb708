import Equational.Cbor.Decoding
import Equational.Proofs.Rediscovery
import Equational.Proofs.WellMade

/-!
# Reading builds well-made atoms

Whatever the bytes are, an atom that is read from them is well made in all its
parts: the reader builds it through the checks and normal forms that every atom
is built through.  A binding set that is read is in ascending order.
-/

namespace Equational

open Atom

namespace Cbor

/-!
## Values of interpretations
-/

namespace Read

variable {α β : Type} {p : α → Prop} {q : β → Prop}

def Yields (p : α → Prop) (read : Read α) : Prop := ∀ a, read = .ok a → p a

theorem yields_ok {a : α} (h : p a) : Yields p (.ok a) := by
  intro b hb
  cases hb
  exact h

theorem yields_error (e : ReadError) : Yields p (.error e) := by
  intro a h
  cases h

theorem Yields.bind {first : Read α} {next : α → Read β} (h : Yields p first)
    (hnext : ∀ a, p a → Yields q (next a)) : Yields q (first >>= next) := by
  cases first with
  | error e => exact yields_error e
  | ok a => exact hnext a (h a rfl)

theorem Yields.map {read : Read α} (h : Yields p read) {f : α → β} (hf : ∀ a, p a → q (f a)) :
    Yields q (read.map f) := by
  cases read with
  | error e => exact yields_error e
  | ok a => exact yields_ok (hf a (h a rfl))

theorem yields_mapError {ε : Type} {checked : Except ε α} {f : ε → ReadError}
    (h : ∀ a, checked = .ok a → p a) : Yields p (checked.mapError f) := by
  cases checked with
  | error e => exact yields_error _
  | ok a => exact yields_ok (h a rfl)

theorem yields_bind {first : Read α} {next : α → Read β} (hnext : ∀ a, Yields q (next a)) :
    Yields q (first >>= next) :=
  @Yields.bind _ _ (fun _ => True) _ _ _ (fun _ _ => trivial) fun a _ => hnext a

theorem yields_map {read : Read α} {f : α → β} (hf : ∀ a, q (f a)) : Yields q (read.map f) :=
  @Yields.map _ _ (fun _ => True) _ _ (fun _ _ => trivial) _ fun a _ => hf a

end Read

open Read

namespace Item

variable {α β : Type} {p : α → Prop} {q : β → Prop}

theorem yields_required {value : Option α} (h : ∀ a, value = some a → p a) :
    Yields p (required value) := by
  cases value with
  | none => exact yields_error _
  | some a => exact yields_ok (h a rfl)

theorem yields_asOption {interpret : Item → Read α} (h : ∀ item, Yields p (interpret item))
    (item : Item) : Yields (fun value => ∀ a, value = some a → p a) (item.asOption interpret) := by
  have hsome : ∀ item, Yields (fun value => ∀ a, value = some a → p a)
      ((interpret item).map some) := by
    intro item
    refine (h item).map fun a ha b hb => ?_
    cases hb
    exact ha
  cases item with
  | null =>
      refine yields_ok fun a ha => ?_
      cases ha
  | _ => exact hsome _

theorem yields_mapItems {interpret : Item → Read α} (h : ∀ item, Yields p (interpret item))
    (items : List Item) : Yields (fun values => ∀ a ∈ values, p a) (mapItems interpret items) := by
  induction items with
  | nil => exact yields_ok (List.forall_mem_nil _)
  | cons item rest ih =>
      refine (h item).bind fun value hvalue => ih.bind fun values hvalues => ?_
      exact yields_ok (List.forall_mem_cons.mpr ⟨hvalue, hvalues⟩)

theorem yields_asList {interpret : Item → Read α} (h : ∀ item, Yields p (interpret item))
    (item : Item) : Yields (fun values => ∀ a ∈ values, p a) (item.asList interpret) := by
  unfold asList
  split
  · exact (yields_mapItems h _).bind fun values hvalues => yields_bind fun _ => yields_ok hvalues
  · exact yields_error _

section

variable {names : List String} {step : α → Nat → Item → Read α}
  (hstep : ∀ record field item, p record → Yields p (step record field item))
include hstep

theorem yields_foldEntries : ∀ (items : List Item) (seen : List Nat) (record : α), p record →
    Yields p (foldEntries names step seen record items)
  | [], seen, record => fun h => by
      rw [foldEntries]
      exact yields_ok h
  | [key], seen, record => fun _ => by
      rw [foldEntries]
      exact yields_bind fun _ => yields_error _
  | key :: value :: rest, seen, record => fun h => by
      rw [foldEntries]
      refine yields_bind fun field? => ?_
      cases field? with
      | none =>
          simp only
          split
          · exact yields_error _
          · exact yields_foldEntries rest seen record h
      | some field =>
          simp only
          split
          · exact yields_error _
          · exact (hstep record field value h).bind fun next hnext =>
              yields_foldEntries rest (field :: seen) next hnext

theorem yields_foldPositions (fields : List Nat) (record : α) (items : List Item) (h : p record) :
    Yields (fun result => p result.1) (foldPositions step fields record items) := by
  induction fields generalizing record items with
  | nil => exact yields_ok h
  | cons field rest ih =>
      cases items with
      | nil => exact yields_ok h
      | cons item items =>
          exact (hstep record field item h).bind fun next hnext => ih next items hnext

theorem yields_asRecord {start : α} (h : p start) (item : Item) :
    Yields p (item.asRecord names step start) := by
  unfold asRecord
  split
  · exact (yields_foldEntries hstep _ [] start h).bind fun record hrecord =>
      yields_bind fun _ => yields_ok hrecord
  · unfold foldArray
    exact (yields_foldPositions hstep _ start _ h).bind fun result hresult =>
      yields_bind fun _ => yields_ok hresult
  · exact yields_error _

end

theorem yields_asItem {interpret : Item → Read α} (h : ∀ item, Yields p (interpret item))
    (content : Content) : Yields p (content.asItem interpret) := by
  unfold Content.asItem Content.read
  split
  · exact yields_error _
  · exact h _
  · exact yields_error _
  · exact (h _).bind fun a ha => yields_bind fun _ => yields_ok ha

end Item

/-!
## Atoms

If the atoms in it are read well made, so is the atom: whatever is read goes through the checks.
-/

/-- What stands in a record while its fields are taken in is built. -/
structure Fields.Built (fields : Fields) : Prop where
  first : OptionEverywhere WellMade fields.first
  second : OptionEverywhere WellMade fields.second
  list : ∀ list, fields.list = some list → ∀ atom ∈ list, atom.Built
  properties : (propertySet fields.properties .new).Built

theorem Fields.built_start : Fields.start.Built where
  first := trivial
  second := trivial
  list := by
    intro list h
    cases h
  properties := ⟨rfl, trivial, trivial, trivial, trivial, trivial⟩

section

variable {read : Item → Read Atom} (hread : ∀ item, Yields Built (read item))
include hread

theorem built_readProperties (item : Item) :
    Yields (fun properties => (propertySet properties .new).Built) (readProperties read item) := by
  have hstart : PropertiesEverywhere WellMade (PropertySet.none : Properties) :=
    ⟨trivial, trivial, trivial, trivial, trivial⟩
  refine (Item.yields_asRecord (fun properties field value h => ?_) hstart item).bind
    fun properties h => ?_
  · refine yields_bind fun law => (Item.yields_asOption hread value).bind fun atom hatom => ?_
    exact yields_ok (propertiesEverywhere_set h (optionEverywhere_iff.mpr hatom))
  · exact yields_mapError fun legal hlegal => built_of_checked hlegal h

theorem built_readSequence (item : Item) :
    Yields (fun s => (sequence s .new).Built) (readSequence read item) := by
  refine (Item.yields_asRecord (fun fields field value h => ?_) Fields.built_start item).bind
    fun fields h => ?_
  · split
    · exact (built_readProperties hread value).map fun properties hproperties =>
        { h with properties := hproperties }
    · refine (Item.yields_asList hread value).map fun list hlist => { h with list := ?_ }
      intro other hother
      cases hother
      exact hlist
  · refine (Item.yields_required h.list).bind fun list hlist => ?_
    exact yields_ok (built_ofList h.properties hlist)

theorem built_readOperator (item : Item) :
    Yields (fun op => (operator op .new).Built) (readOperator read item) := by
  refine (Item.yields_asRecord (fun fields field value h => ?_) Fields.built_start item).bind
    fun fields h => ?_
  · split
    · exact yields_map fun name => { h with }
    · exact (built_readProperties hread value).map fun properties hproperties =>
        { h with properties := hproperties }
    · refine (Item.yields_asList hread value).map fun list hlist => { h with list := ?_ }
      intro other hother
      cases hother
      exact hlist
    · exact (Item.yields_asOption hread value).map fun result hresult =>
        { h with first := optionEverywhere_iff.mpr hresult }
  · refine yields_bind fun name => (Item.yields_required h.list).bind fun list hlist => ?_
    exact yields_mapError fun legal hlegal =>
      built_of_checked_operator hlegal h.properties (listEverywhere_iff.mpr hlist) h.first

theorem built_readVariable (item : Item) : Yields Built (readVariable read item) := by
  refine (Item.yields_asRecord (fun fields field value h => ?_) Fields.built_start item).bind
    fun fields h => ?_
  · split
    · exact yields_map fun name => { h with }
    · exact (hread value).map fun type htype => { h with first := htype }
    · exact (Item.yields_asOption hread value).map fun guard hguard =>
        { h with second := optionEverywhere_iff.mpr hguard }
    · exact yields_map fun index => { h with }
  · refine yields_bind fun name => ?_
    refine (Item.yields_required (optionEverywhere_iff.mp h.first)).bind fun type htype => ?_
    exact yields_ok ⟨trivial, htype, h.second⟩

theorem built_pair (names : List String) (item : Item) :
    Yields (fun pair => pair.1.Built ∧ pair.2.Built)
      (item.asRecord names (pairStep read) Fields.start >>= finishPair) := by
  refine (Item.yields_asRecord (fun fields field value h => ?_) Fields.built_start item).bind
    fun fields h => ?_
  · unfold pairStep
    split
    · exact (hread value).map fun first hfirst => { h with first := hfirst }
    · exact (hread value).map fun second hsecond => { h with second := hsecond }
  · refine (Item.yields_required (optionEverywhere_iff.mp h.first)).bind fun first hfirst => ?_
    refine (Item.yields_required (optionEverywhere_iff.mp h.second)).bind fun second hsecond => ?_
    exact yields_ok ⟨hfirst, hsecond⟩

theorem built_readLiteralAtom (item : Item) :
    Yields Built (item.asRecord ["value", "ty"]
      (fun fields field value =>
        match field with
        | 0 => (readLiteral value).map fun literal => { fields with literal := some literal }
        | _ => (read value).map fun type => { fields with first := some type })
      Fields.start >>= fun fields => do
        let literal ← Item.required fields.literal
        let type ← Item.required fields.first
        pure (.literal literal type .new)) := by
  refine (Item.yields_asRecord (fun fields field value h => ?_) Fields.built_start item).bind
    fun fields h => ?_
  · split
    · exact yields_map fun literal => { h with }
    · exact (hread value).map fun type htype => { h with first := htype }
  · refine yields_bind fun literal => ?_
    refine (Item.yields_required (optionEverywhere_iff.mp h.first)).bind fun type htype => ?_
    exact yields_ok ⟨trivial, htype⟩

theorem built_readKind (item : Item) : Yields Built (readKind read item) := by
  unfold readKind
  refine yields_bind fun choice => ?_
  rcases choice with ⟨choice, content⟩
  simp only
  split
  · exact yields_map fun _ => trivial
  · exact yields_map fun name => trivial
  · exact Item.yields_asItem (built_readLiteralAtom hread) content
  · exact Item.yields_asItem (built_readVariable hread) content
  · refine (Item.yields_asItem (built_pair hread _) content).bind fun pair hpair => ?_
    exact yields_mapError fun atom hatom => built_checkedLambda hatom hpair.1 hpair.2
  · exact (Item.yields_asItem (built_readSequence hread) content).map fun s hs => hs
  · exact (Item.yields_asItem (built_readProperties hread) content).map fun p hp => hp
  · exact (Item.yields_asItem (built_readOperator hread) content).map fun op hop => hop
  · refine (Item.yields_asItem (built_pair hread _) content).bind fun pair hpair => ?_
    exact yields_ok ⟨trivial, hpair.1, hpair.2⟩

end

theorem built_readAtomWithin (within : Nat) (item : Item) :
    Yields Built (readAtomWithin within item) := by
  induction within generalizing item with
  | zero => exact yields_error _
  | succ within ih => exact built_readKind ih item

theorem built_readAtom (item : Item) : Yields Built (readAtom item) :=
  built_readAtomWithin _ item

/-- The binding sets that building makes: names in ascending order, bound to well-made atoms. -/
structure BuiltBindings (binds : Bindings) : Prop where
  ascending : binds.Ascending
  all : binds.All Built

theorem built_readEntries (items : List Item) (binds : Bindings) (h : BuiltBindings binds) :
    Yields BuiltBindings (readBindings.entries binds items) := by
  induction hlength : items.length using Nat.strongRecOn generalizing items binds with
  | ind length ih =>
      cases items with
      | nil => exact yields_ok h
      | cons key rest =>
          unfold readBindings.entries
          refine yields_bind fun name => ?_
          cases rest with
          | nil => exact yields_error _
          | cons value rest =>
              refine (built_readAtom value).bind fun atom hatom => ?_
              refine ih rest.length ?_ rest _ ?_ rfl
              · rw [← hlength]
                simp only [List.length_cons]
                omega
              · exact ⟨h.ascending.insert name atom, h.all.insert hatom⟩

theorem built_readBindings (item : Item) : Yields BuiltBindings (readBindings item) := by
  unfold readBindings
  split
  · refine (built_readEntries _ .empty ⟨NameMap.ascending_empty, NameMap.all_empty⟩).bind ?_
    exact fun binds hbinds => yields_bind fun _ => yields_ok hbinds
  · exact yields_error _

theorem yields_decode {α : Type} {p : α → Prop} {interpret : Item → Read α}
    (h : ∀ item, Yields p (interpret item)) (bytes : List UInt8) :
    Yields p (decode interpret bytes) := by
  unfold decode
  simp only
  split
  · exact yields_error _
  · rename_i value hvalue
    have hp := h _ value hvalue
    split
    · exact yields_ok hp
    · exact yields_error _
    · split
      · exact yields_error _
      · exact yields_error _

end Cbor

theorem Atom.built_of_decode {bytes : List UInt8} {atom : Atom} (h : Atom.decode bytes = .ok atom) :
    atom.Built :=
  Cbor.yields_decode Cbor.built_readAtom bytes atom h

namespace NameMap

theorem Ascending.find?_of_mem {binds : Bindings} (h : binds.Ascending) {name : String}
    {atom : Atom}
    (hmem : (name, atom) ∈ binds.entries) : binds.find? name = some atom := by
  rcases binds with ⟨entries⟩
  change entries.Pairwise _ at h
  change entries.lookup name = some atom
  induction entries with
  | nil => cases hmem
  | cons first rest ih =>
      rw [List.pairwise_cons] at h
      rcases List.mem_cons.mp hmem with rfl | hrest
      · exact List.lookup_cons_self
      · have hne : (name == first.1) = false :=
          beq_false_of_ne (String.ne_of_lt (h.1 _ hrest)).symm
        rw [List.lookup_cons, hne]
        exact ih hrest h.2

theorem built_of_decode {bytes : List UInt8} {binds : Bindings}
    (h : NameMap.decode bytes = .ok binds) :
    binds.Ascending ∧ ∀ entry ∈ binds.entries, entry.2.Built := by
  have hbuilt := Cbor.yields_decode Cbor.built_readBindings bytes binds h
  constructor
  · exact hbuilt.ascending
  · exact fun entry hentry => hbuilt.all entry.1 entry.2 (hbuilt.ascending.find?_of_mem hentry)

end NameMap

end Equational
