import Equational.Atom.Checked
import Equational.Cbor.Interpretation
import Equational.Sequence.Normal

/-!
# Reading stored atoms

Atoms, property sets, sequences, operators, binding sets and fingerprints from
their stored forms.  Reading goes through the checks and normal forms that
building goes through, and does so as soon as the parts of a value are read.
-/

namespace Equational
namespace Cbor

/-- A record while its fields are taken in. -/
structure Fields where
  name : Option String
  first : Option Atom
  second : Option Atom
  list : Option (List Atom)
  properties : Properties
  index : UInt64
  literal : Option Literal

namespace Fields

def start : Fields := ⟨none, none, none, none, .none, 0, none⟩

end Fields

def readLiteral (item : Item) : Read Literal := do
  let (choice, content) ← item.asChoice ["Integer", "String", "Symbol", "Boolean", "Float"]
  match choice with
  | 0 => (content.asItem Item.asInt64).map .integer
  | 1 => (content.asItem Item.asText).map .string
  | 2 => (content.asItem Item.asText).map .symbol
  | 3 => (content.asItem Item.asBool).map .boolean
  | _ => (content.asItem Item.asFloat).map .float

def readLaw (item : Item) : Read Law := do
  let (choice, content) ←
    item.asChoice ["Associative", "Commutative", "Idempotent", "Absorber", "Identity"]
  content.asNothing
  Item.required (Law.all[choice]?)

def readProperties (atom : Item → Read Atom) (item : Item) : Read Properties := do
  let properties ← item.asRecord (Law.all.map Law.name)
    (fun properties field value => do
      let law ← Item.required (Law.all[field]?)
      let value ← value.asOption atom
      pure (properties.set law value))
    PropertySet.none
  properties.checked.mapError .illegalProperties

/-- A sequence, normalized again. -/
def readSequence (atom : Item → Read Atom) (item : Item) : Read (Sequence Atom) := do
  let fields ← item.asRecord ["props", "atoms"]
    (fun fields field value =>
      match field with
      | 0 => (readProperties atom value).map fun properties =>
        { fields with properties := properties }
      | _ => (value.asList atom).map fun list => { fields with list := some list })
    Fields.start
  let list ← Item.required fields.list
  pure (.ofList fields.properties list)

def readOperator (atom : Item → Read Atom) (item : Item) : Read (Operator Atom) := do
  let fields ← item.asRecord ["name", "props", "params", "result_type"]
    (fun fields field value =>
      match field with
      | 0 => value.asText.map fun name => { fields with name := some name }
      | 1 => (readProperties atom value).map fun properties =>
        { fields with properties := properties }
      | 2 => (value.asList atom).map fun list => { fields with list := some list }
      | _ => (value.asOption atom).map fun result => { fields with first := result })
    Fields.start
  let name ← Item.required fields.name
  let list ← Item.required fields.list
  (Operator.checked ⟨name, fields.properties, list, fields.first, none⟩).mapError .illegalTerm

def readVariable (atom : Item → Read Atom) (item : Item) : Read Atom := do
  let fields ← item.asRecord ["name", "ty", "guard", "index"]
    (fun fields field value =>
      match field with
      | 0 => value.asText.map fun name => { fields with name := some name }
      | 1 => (atom value).map fun type => { fields with first := some type }
      | 2 => (value.asOption atom).map fun guard => { fields with second := guard }
      | _ => (value.asNat (Number.twoTo 64)).map fun index =>
        { fields with index := index.toUInt64 })
    Fields.start
  let name ← Item.required fields.name
  let type ← Item.required fields.first
  pure (.var name type fields.second fields.index .new)

def pairStep (atom : Item → Read Atom) (fields : Fields) (field : Nat) (value : Item) :
    Read Fields :=
  match field with
  | 0 => (atom value).map fun first => { fields with first := some first }
  | _ => (atom value).map fun second => { fields with second := some second }

def finishPair (fields : Fields) : Read (Atom × Atom) := do
  let first ← Item.required fields.first
  let second ← Item.required fields.second
  pure (first, second)

def readKind (atom : Item → Read Atom) (item : Item) : Read Atom := do
  let (choice, content) ← item.asChoice
    ["TypeUniverse", "RootType", "Literal", "Variable", "Lambda", "Seq", "Prop", "OperatorRef",
      "Apply"]
  match choice with
  | 0 => content.asNothing.map fun _ => .typeUniverse .new
  | 1 => (content.asItem Item.asText).map (.root · .new)
  | 2 =>
    content.asFields ["value", "ty"]
      (fun fields field value =>
        match field with
        | 0 => (readLiteral value).map fun literal => { fields with literal := some literal }
        | _ => (atom value).map fun type => { fields with first := some type })
      Fields.start
      (fun fields => do
        let literal ← Item.required fields.literal
        let type ← Item.required fields.first
        pure (.literal literal type .new))
  | 3 => content.asItem (readVariable atom)
  | 4 => do
    let (parameter, body) ←
      content.asFields ["param", "body"] (pairStep atom) Fields.start finishPair
    (Atom.checkedLambda parameter body).mapError .illegalTerm
  | 5 => (content.asItem (readSequence atom)).map (.sequence · .new)
  | 6 => (content.asItem (readProperties atom)).map (.propertySet · .new)
  | 7 => (content.asItem (readOperator atom)).map (.operator · .new)
  | _ => do
    let (head, argument) ← content.asItem fun item => do
      let fields ← item.asRecord ["op", "arg"] (pairStep atom) Fields.start
      finishPair fields
    pure (.application head argument .empty .new)

/-- An atom with atoms nested in it at most `depth` deep. -/
def readAtomWithin : Nat → Item → Read Atom
  | 0, _ => .error .syntaxError
  | depth + 1, item => readKind (readAtomWithin depth) item

/-- An atom.  Every atom within another lies in one more container, so the limit on open
containers is a limit on nested atoms too. -/
def readAtom (item : Item) : Read Atom := readAtomWithin (Item.nestingLimit + 1) item

/-- A binding set.  Of two atoms of one name the later stays. -/
def readBindings (item : Item) : Read Bindings :=
  match item.untagged with
  | .map _ items isCut => do
    let binds ← entries .empty items
    Item.ended [] isCut
    pure binds
  | other => .error other.unexpected
where
  entries (binds : Bindings) : List Item → Read Bindings
    | [] => .ok binds
    | key :: rest => do
      let name ← key.asText
      match rest with
      | [] => .error .endOfInput
      | value :: rest => do
        let atom ← readAtom value
        entries (binds.insert name atom) rest

/-- A fingerprint from exactly 32 bytes. -/
def readDigest (item : Item) : Read Digest :=
  match item.untagged with
  | .array items isCut => do
    let bytes ← Item.mapItems (fun item => (item.asNat 256).map Nat.toUInt8) (items.take 32)
    match Digest.ofBytes? bytes with
    | some digest => do
      Item.ended (items.drop 32) isCut
      pure digest
    | none => .error (if isCut then .endOfInput else .data)
  | other => .error other.unexpected

end Cbor

namespace Atom

def decode (bytes : List UInt8) : Cbor.Read Atom := Cbor.decode Cbor.readAtom bytes

end Atom

namespace NameMap

def decode (bytes : List UInt8) : Cbor.Read Bindings := Cbor.decode Cbor.readBindings bytes

end NameMap

end Equational
