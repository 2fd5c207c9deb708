import Equational.Atom.Basic
import Equational.Cbor.Writer

/-!
# The stored form of atoms

Atoms, property sets, sequences, operators, binding sets and fingerprints as
data items.  Native evaluations, the parameters stored in applications and
marks are not kept.
-/

namespace Equational
namespace Cbor

/-- The fields of a record that are there. -/
def present (fields : List (String × Option Item)) : Item :=
  .record (fields.filterMap fun field => field.2.map (field.1, ·))

def literalItem : Literal → Item
  | .integer value => .variant "Integer" (.ofInt value.toInt)
  | .string value => .variant "String" (.text value)
  | .symbol name => .variant "Symbol" (.text name)
  | .boolean value => .variant "Boolean" (.boolean value)
  | .float value => .variant "Float" (.float value)

mutual

def atomItem : Atom → Item
  | .typeUniverse _ => .text "TypeUniverse"
  | .root name _ => .variant "RootType" (.text name)
  | .literal value type _ =>
    .variant "Literal" (.record [("value", literalItem value), ("ty", atomItem type)])
  | .var name type guard index _ =>
    .variant "Variable" (present
      [("name", some (.text name)), ("ty", some (atomItem type)), ("guard", optionItem guard),
        ("index", some (.unsigned index.toNat))])
  | .lambda parameter body _ =>
    .variant "Lambda" (.record [("param", atomItem parameter), ("body", atomItem body)])
  | .sequence s _ => .variant "Seq" (sequenceItem s)
  | .propertySet properties _ => .variant "Prop" (propertiesItem properties)
  | .operator op _ => .variant "OperatorRef" (operatorItem op)
  | .application head argument _ _ =>
    .variant "Apply" (.record [("op", atomItem head), ("arg", atomItem argument)])

def listItems : List Atom → List Item
  | [] => []
  | atom :: rest => atomItem atom :: listItems rest

def optionItem : Option Atom → Option Item
  | none => none
  | some atom => some (atomItem atom)

def propertiesItem : PropertySet Atom → Item
  | ⟨a, c, i, b, d⟩ =>
    present
      [("associative", optionItem a), ("commutative", optionItem c), ("idempotent", optionItem i),
        ("absorber", optionItem b), ("identity", optionItem d)]

def sequenceItem : Sequence Atom → Item
  | ⟨properties, elements⟩ =>
    .record [("props", propertiesItem properties), ("atoms", .list (listItems elements))]

def operatorItem : Operator Atom → Item
  | ⟨name, properties, parameters, resultType, _⟩ =>
    present
      [("name", some (.text name)), ("props", some (propertiesItem properties)),
        ("params", some (.list (listItems parameters))), ("result_type", optionItem resultType)]

end

def bindingsItem (binds : Bindings) : Item :=
  .map (binds.entries.length == 1)
    (binds.entries.flatMap fun entry => [.text entry.1, atomItem entry.2]) false

def digestItem (digest : Digest) : Item :=
  .list (digest.bytes.map fun b => .unsigned b.toNat)

end Cbor

namespace Atom

def encode (atom : Atom) : List UInt8 := (Cbor.atomItem atom).write

end Atom

namespace NameMap

def encode (binds : Bindings) : List UInt8 := (Cbor.bindingsItem binds).write

end NameMap

end Equational
