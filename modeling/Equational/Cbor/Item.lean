import Equational.Digest.Layout
import Equational.Number.Shortest

/-!
# CBOR data items

The data items of the concise binary object representation, as far as a reader
got with them.  Where the bytes are not well formed, or come to an end too
early, the item is broken off at that place, so that what stands before it can
still be interpreted, and the first thing that is wrong in reading order is the
one that is reported.
-/

namespace Equational
namespace Cbor

/-- Why bytes could not be read on. -/
inductive Defect where
  /-- The bytes are not well formed, or there are more of them than expected. -/
  | syntaxError
  /-- The bytes end inside an item. -/
  | endOfInput
deriving DecidableEq

/-- A data item. -/
inductive Item where
  | unsigned (value : Nat)
  /-- The integer `-1 - value`. -/
  | negative (value : Nat)
  | bytes (value : List UInt8)
  | text (value : String)
  /-- The items of an array; `isCut` if its end mark was missing. -/
  | array (items : List Item) (isCut : Bool)
  /-- Keys and values in turn.  A map that announces one entry in its first byte is
  `single`. -/
  | map (single : Bool) (items : List Item) (isCut : Bool)
  | tagged (item : Item)
  | boolean (value : Bool)
  | null
  | undefined
  | float (value : Number.Binary64)
  | broken (defect : Defect)

namespace Item

/-- An item without the tags around it. -/
def untagged : Item → Item
  | tagged item => item.untagged
  | item => item

mutual

/-- The first defect of an item, in reading order. -/
def defect? : Item → Option Defect
  | array items isCut => (listDefect? items).or (if isCut then some .endOfInput else none)
  | map _ items isCut => (listDefect? items).or (if isCut then some .endOfInput else none)
  | tagged item => item.defect?
  | broken defect => some defect
  | _ => none

def listDefect? : List Item → Option Defect
  | [] => none
  | item :: rest => item.defect?.or (listDefect? rest)

end

/-! ## Items to be written -/

def record (fields : List (String × Item)) : Item :=
  map (fields.length == 1) (fields.flatMap fun field => [text field.1, field.2]) false

def variant (name : String) (content : Item) : Item := record [(name, content)]

def list (items : List Item) : Item := array items false

def ofInt (i : Int) : Item :=
  if i < 0 then negative (-1 - i).toNat else unsigned i.toNat

end Item

end Cbor
end Equational
