import Equational.Cbor.Reader
import Equational.Failure

/-!
# Interpreting items

How items stand for texts, numbers, records and choices.  A record is a map
from field names, or an array of its fields in order; a choice is a name, a map
of one entry, or an array of the name and its content.  Names of fields and
choices may be texts, bytes or positions.  Parts are interpreted in reading
order, so the first thing that is wrong is the one that is reported.
-/

namespace Equational
namespace Cbor

/-- Why bytes stand for no value. -/
inductive ReadError where
  | defect (defect : Defect)
  /-- A well-formed item of the wrong kind. -/
  | data
  /-- The value breaks a rule of property sets. -/
  | illegalProperties (error : PropertyError)
  /-- The value breaks a rule of terms. -/
  | illegalTerm (error : TermError)

namespace ReadError

def syntaxError : ReadError := defect .syntaxError

def endOfInput : ReadError := defect .endOfInput

/-- The words of an error of the second half; errors of form have none. -/
def message? : ReadError → Option String
  | illegalProperties error => some error.message
  | illegalTerm error => some error.message
  | _ => none

end ReadError

abbrev Read (α : Type) := Except ReadError α

namespace Item

def unexpected : Item → ReadError
  | broken defect => .defect defect
  | _ => .data

def asUnit (item : Item) : Read Unit :=
  match item.untagged with
  | null | undefined => .ok ()
  | other => .error other.unexpected

def asBool (item : Item) : Read Bool :=
  match item.untagged with
  | boolean value => .ok value
  | other => .error other.unexpected

/-- A text, or bytes that encode one. -/
def asText (item : Item) : Read String :=
  match item.untagged with
  | text value => .ok value
  | bytes value =>
    match text? value with
    | some string => .ok string
    | none => .error .data
  | other => .error other.unexpected

def asNat (bound : Nat) (item : Item) : Read Nat :=
  match item.untagged with
  | unsigned value => if value < bound then .ok value else .error .data
  | other => .error other.unexpected

def asInt64 (item : Item) : Read Int64 :=
  match item.untagged with
  | unsigned value => if value < Number.twoTo 63 then .ok (Int64.ofInt value) else .error .data
  | negative value =>
    if value < Number.twoTo 63 then .ok (Int64.ofInt (-1 - value)) else .error .data
  | other => .error other.unexpected

/-- A float, or an integer of 64 bits. -/
def asFloat (item : Item) : Read Number.Binary64 :=
  match item.untagged with
  | float value => .ok value
  | unsigned value => .ok (.ofInt value)
  | negative value => if value < Number.twoTo 63 then .ok (.ofInt (-1 - value)) else .error .data
  | other => .error other.unexpected

/-- Nothing for `null`, else what the item is interpreted as. -/
def asOption {α : Type} (interpret : Item → Read α) : Item → Read (Option α)
  | null => .ok none
  | item => (interpret item).map some

/-- The end of a list of items that should be over. -/
def ended (items : List Item) (isCut : Bool) : Read Unit :=
  if !items.isEmpty then .error .syntaxError
  else if isCut then .error .endOfInput
  else .ok ()

def mapItems {α : Type} (interpret : Item → Read α) : List Item → Read (List α)
  | [] => .ok []
  | item :: rest => do
    let value ← interpret item
    let values ← mapItems interpret rest
    pure (value :: values)

def asList {α : Type} (interpret : Item → Read α) (item : Item) : Read (List α) :=
  match item.untagged with
  | array items isCut => do
    let values ← mapItems interpret items
    ended [] isCut
    pure values
  | other => .error other.unexpected

/-! ## Names -/

/-- What identifies a field or a choice. -/
inductive Key where
  | position (index : Nat)
  | name (spelling : List UInt8)

def asKey (item : Item) : Read Key :=
  match item.untagged with
  | unsigned value => .ok (.position value)
  | text value => .ok (.name (utf8 value))
  | bytes value => .ok (.name value)
  | other => .error other.unexpected

def Key.find? (key : Key) (names : List String) : Option Nat :=
  match key with
  | position index => if index < names.length then some index else none
  | name spelling => names.findIdx? fun name => utf8 name == spelling

/-! ## Records -/

/-- Takes in the fields of a map in their order; a field may stand only once, and what is not
a field is passed over. -/
def foldEntries {α : Type} (names : List String) (step : α → Nat → Item → Read α) :
    List Nat → α → List Item → Read α
  | _, record, [] => .ok record
  | seen, record, key :: rest => do
    let field? ← (asKey key).map (Key.find? · names)
    match rest with
    | [] => .error .endOfInput
    | value :: rest =>
      match field? with
      | none =>
        match value.defect? with
        | some defect => .error (.defect defect)
        | none => foldEntries names step seen record rest
      | some field =>
        if seen.contains field then .error .data
        else do
          let record ← step record field value
          foldEntries names step (field :: seen) record rest

/-- Takes in fields by position, and leaves the items that are too many. -/
def foldPositions {α : Type} (step : α → Nat → Item → Read α) :
    List Nat → α → List Item → Read (α × List Item)
  | field :: fields, record, item :: rest => do
    let record ← step record field item
    foldPositions step fields record rest
  | _, record, rest => .ok (record, rest)

def foldArray {α : Type} (names : List String) (step : α → Nat → Item → Read α) (start : α)
    (items : List Item) (isCut : Bool) : Read α := do
  let (record, rest) ← foldPositions step (List.range names.length) start items
  ended rest isCut
  pure record

def asRecord {α : Type} (names : List String) (step : α → Nat → Item → Read α) (start : α)
    (item : Item) : Read α :=
  match item.untagged with
  | map _ items isCut => do
    let record ← foldEntries names step [] start items
    ended [] isCut
    pure record
  | array items isCut => foldArray names step start items isCut
  | other => .error other.unexpected

def required {α : Type} : Option α → Read α
  | some value => .ok value
  | none => .error .data

/-! ## Choices -/

/-- What stands behind the name of a choice: nothing, the value of a map, or the rest of an
array. -/
inductive Content where
  | nothing
  | value (item : Item)
  | rest (items : List Item) (isCut : Bool)

def asChoice (names : List String) (item : Item) : Read (Nat × Content) :=
  let position (key : Item) : Read Nat := do
    let key ← asKey key
    required (key.find? names)
  match item with
  | map true (key :: rest) _ => do
    let choice ← position key
    match rest with
    | value :: _ => pure (choice, .value value)
    | [] => .error .endOfInput
  | array (key :: rest) isCut => do
    let choice ← position key
    pure (choice, .rest rest isCut)
  | array [] isCut => .error (if isCut then .endOfInput else .syntaxError)
  | other => do
    let choice ← position other
    pure (choice, .nothing)

namespace Content

/-- The content as one item.  In an array it has to be there, and to be the last. -/
def read {α : Type} (interpret : Item → Read α) (ifNothing : Read α) : Content → Read α
  | nothing => ifNothing
  | value item => interpret item
  | rest [] isCut => .error (if isCut then .endOfInput else .syntaxError)
  | rest (item :: items) isCut => do
    let content ← interpret item
    ended items isCut
    pure content

def asNothing (content : Content) : Read Unit := content.read asUnit (.ok ())

def asItem {α : Type} (interpret : Item → Read α) (content : Content) : Read α :=
  content.read interpret (.error .data)

def asFields {α β : Type} (names : List String) (step : α → Nat → Item → Read α) (start : α)
    (finish : α → Read β) (content : Content) : Read β :=
  content.asItem fun item => do
    let record ← asRecord names step start item
    finish record

end Content

end Item

/-- Interprets bytes that hold one item and nothing behind it. -/
def decode {α : Type} (interpret : Item → Read α) (bytes : List UInt8) : Read α :=
  let (item, rest?) := Item.ofBytes bytes
  match interpret item with
  | .error error => .error error
  | .ok value =>
    match rest? with
    | some ⟨_, []⟩ => .ok value
    | some _ => .error .syntaxError
    | none =>
      match item.defect? with
      | some defect => .error (.defect defect)
      | none => .error .endOfInput

end Cbor
end Equational
