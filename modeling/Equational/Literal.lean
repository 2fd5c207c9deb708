import Equational.Digest.Layout
import Equational.Number.Integer
import Equational.Number.Shortest
import Equational.Text.Quoted

/-!
# Literals

The values at the leaves of atoms.  A float is known by its bits, so that two
floats are the same literal only when all their bits agree.
-/

namespace Equational

/-- The value of a literal atom. -/
inductive Literal where
  | integer (value : Int64)
  | string (value : String)
  | symbol (name : String)
  | boolean (value : Bool)
  | float (value : Number.Binary64)
deriving DecidableEq

namespace Literal

/-- The name of the root type that literals of this sort have unless told otherwise. -/
def rootName : Literal → String
  | integer _ => "INTEGER"
  | string _ => "STRING"
  | symbol _ => "SYMBOL"
  | boolean _ => "BOOLEAN"
  | float _ => "FLOAT"

def fields : Literal → List Digest.Field
  | integer value => [.tag 0, .word value.toUInt64]
  | string value => [.tag 1, .text value]
  | symbol name => [.tag 2, .text name]
  | boolean value => [.tag 3, .tag value.toUInt8]
  | float value => [.tag 4, .word value.bits]

/-- Strings are quoted, symbols stand between backticks. -/
def text : Literal → String
  | integer value => Number.intText value.toInt
  | string value => Text.quoted value
  | symbol name => "`" ++ name ++ "`"
  | boolean value => if value then "true" else "false"
  | float value => value.text

end Literal

end Equational
