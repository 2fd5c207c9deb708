import Equational.Atom.Identity

/-!
# Text of atoms

The written form of atoms, property sets, operators and binding sets.  A type
is written only where it is not the one to be expected, a guard stands in
braces behind its variable, and an application of an operator to a sequence
looks like a function call.
-/

namespace Equational

def commaList (texts : List String) : String := ", ".intercalate texts

namespace Atom

/-- One boolean law: its letter, negated by an exclamation mark, or with a symbolic value in
brackets. -/
def flagText (letter : String) (value : Option Atom) (text : String) : String :=
  match value with
  | none => ""
  | some atom =>
    match atom.bool? with
    | some true => letter
    | some false => "!" ++ letter
    | none => letter ++ "[" ++ text ++ "]"

/-- One element law, set off by a space from what comes before it. -/
def elementText (leading : Bool) (letter : String) (value : Option Atom) (text : String) :
    String :=
  match value with
  | none => ""
  | some _ => (if leading then " " else "") ++ letter ++ "[" ++ text ++ "]"

mutual

def text : Atom → String
  | typeUniverse _ => "^TYPE"
  | root name _ => name
  | literal value type _ =>
    value.text ++ (if type == root value.rootName .common then "" else ":" ++ type.text)
  | var name type guard index _ =>
    (if index == 0 then "$" else "") ++ name ++ (if type.isAny then "" else ":" ++ type.text)
      ++ (match guard with
          | none => ""
          | some atom => "\x7b" ++ atom.text ++ "\x7d")
  | lambda parameter body _ => "\\$" ++ parameter.text ++ "." ++ body.text
  | sequence ⟨properties, elements⟩ _ =>
    "%" ++ propertiesText properties ++ "(" ++ commaList (listTexts elements) ++ ")"
  | propertySet properties _ => "%\x7b" ++ propertiesText properties ++ "\x7d"
  | operator op _ => op.name
  | application (operator op _) (sequence ⟨_, elements⟩ _) _ _ =>
    op.name ++ "(" ++ commaList (listTexts elements) ++ ")"
  | application (operator op _) argument _ _ => op.name ++ "(" ++ argument.text ++ ")"
  | application head argument _ _ => head.text ++ "." ++ argument.text

def listTexts : List Atom → List String
  | [] => []
  | atom :: rest => atom.text :: listTexts rest

def optionText : Option Atom → String
  | none => ""
  | some atom => atom.text

/-- The flags in a row, then the absorber, then the identity. -/
def propertiesText : PropertySet Atom → String
  | ⟨a, c, i, b, d⟩ =>
    let leading := a.isSome || c.isSome || i.isSome
    flagText "A" a (optionText a) ++ flagText "C" c (optionText c)
      ++ flagText "I" i (optionText i) ++ elementText leading "B" b (optionText b)
      ++ elementText (leading || b.isSome) "D" d (optionText d)

end

def debugText (atom : Atom) : String := "Atom(" ++ atom.text ++ ")"

end Atom

namespace PropertySet

def text (properties : Properties) : String := Atom.propertiesText properties

end PropertySet

namespace Operator

def debugText (op : Operator Atom) : String :=
  "Operator \x7b name: " ++ Text.quoted op.name ++ ", props: " ++ Text.quoted op.properties.text
    ++ ", params: [" ++ commaList (op.parameters.map Atom.debugText) ++ "], handler: "
    ++ (if op.native.isSome then "true" else "false") ++ " \x7d"

end Operator

namespace NameMap

def text (binds : Bindings) : String :=
  let pairs := binds.entries.map fun entry => "$" ++ entry.1 ++ " -> " ++ entry.2.text
  "\x7bbinds" ++ (if pairs.isEmpty then "" else " " ++ commaList pairs) ++ "\x7d"

end NameMap

end Equational
