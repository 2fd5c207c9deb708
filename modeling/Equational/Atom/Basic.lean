import Equational.Literal
import Equational.NameMap
import Equational.PropertySet.Basic

/-!
# Atoms

An atom is a node of a symbolic term.  The kinds of atom are closed: the type
universe, named root types, literals, variables, lambdas, sequences, property
sets, operator references and applications.  Like property sets, operators and
sequences are given over an arbitrary type of atoms first.

Terms share their parts.  Every atom carries a mark that tells it from other
atoms with the same parts, and keeps it wherever it goes; only the question
whether two atoms are one and the same looks at marks.
-/

namespace Equational

/-! ## Operators -/

/-- An operator: a name, its properties, its formal parameters, the type of its
applications, and the key of the native evaluation that it runs, if any. -/
structure Operator (α : Type) where
  name : String
  properties : PropertySet α
  parameters : List α
  resultType : Option α
  native : Option String

/-! ## Sequences -/

/-- A list of elements under a set of properties. -/
structure Sequence (α : Type) where
  properties : PropertySet α
  elements : List α

/-! ## Marks -/

/-- A place in the course of some work: the numbers of the steps that lead there, the last step
first. -/
abbrev Place := List Nat

/-- What tells an atom from others with the same parts. -/
inductive Mark where
  /-- The atom was just made, and stands only where it was made. -/
  | new
  /-- The atom is there once and for all. -/
  | common
  /-- The atom is named after the place where it was made. -/
  | made (place : Place)
deriving DecidableEq

/-! ## The term type -/

/-- A symbolic term. -/
inductive Atom where
  /-- The type of all root types and of itself. -/
  | typeUniverse (mark : Mark)
  /-- A named type without further structure. -/
  | root (name : String) (mark : Mark)
  | literal (value : Literal) (type : Atom) (mark : Mark)
  /-- A pattern variable if the index is zero, else a variable bound by a lambda. -/
  | var (name : String) (type : Atom) (guard : Option Atom) (index : UInt64) (mark : Mark)
  | lambda (parameter body : Atom) (mark : Mark)
  | sequence (sequence : Sequence Atom) (mark : Mark)
  | propertySet (properties : PropertySet Atom) (mark : Mark)
  | operator (operator : Operator Atom) (mark : Mark)
  /-- A head applied to an argument, with the parameters bound when it was built. -/
  | application (head argument : Atom) (bound : NameMap Atom) (mark : Mark)

/-- Named atoms found by matching, or to be put in the place of variables. -/
abbrev Bindings := NameMap Atom

abbrev Properties := PropertySet Atom

namespace Atom

/-! ## Root types and literals -/

/-- The root type that, as a pattern, matches every subject. -/
def any : Atom := root "ANY" .common

def operatorType : Atom := root "OPREF" .common

def commonNames : List String :=
  ["ANY", "INTEGER", "STRING", "SYMBOL", "BOOLEAN", "FLOAT", "OPREF"]

/-- The root type that a name stands for: the common one, if there is one of that name. -/
def named (name : String) : Atom :=
  root name (if commonNames.contains name then .common else .new)

def ofLiteral (value : Literal) : Atom := literal value (root value.rootName .common) .new

def integer (value : Int64) : Atom := ofLiteral (.integer value)

def boolean (value : Bool) : Atom := ofLiteral (.boolean value)

def symbol (name : String) : Atom := ofLiteral (.symbol name)

/-- A pattern variable without a guard. -/
def free (name : String) (type : Atom) : Atom := var name type none 0 .new

/-! ## Parts of an atom -/

def mark : Atom → Mark
  | typeUniverse mark | root _ mark | literal _ _ mark | var _ _ _ _ mark | lambda _ _ mark
  | sequence _ mark | propertySet _ mark | operator _ mark | application _ _ _ mark => mark

def withMark (mark : Mark) : Atom → Atom
  | typeUniverse _ => typeUniverse mark
  | root name _ => root name mark
  | literal value type _ => literal value type mark
  | var name type guard index _ => var name type guard index mark
  | lambda parameter body _ => lambda parameter body mark
  | sequence s _ => sequence s mark
  | propertySet properties _ => propertySet properties mark
  | operator op _ => operator op mark
  | application head argument bound _ => application head argument bound mark

@[simp] theorem mark_withMark (mark : Mark) (atom : Atom) : (atom.withMark mark).mark = mark := by
  cases atom <;> rfl

@[simp] theorem withMark_mark (atom : Atom) : atom.withMark atom.mark = atom := by
  cases atom <;> rfl

def isAny : Atom → Bool
  | root name _ => name == "ANY"
  | _ => false

def bool? : Atom → Option Bool
  | literal (.boolean value) _ _ => some value
  | _ => none

def int? : Atom → Option Int64
  | literal (.integer value) _ _ => some value
  | _ => none

def operator? : Atom → Option (Operator Atom)
  | operator op _ => some op
  | _ => none

def sequence? : Atom → Option (Sequence Atom)
  | sequence s _ => some s
  | _ => none

def elements? : Atom → Option (List Atom)
  | sequence s _ => some s.elements
  | _ => none

def isBoundVar : Atom → Bool
  | var _ _ _ index _ => index != 0
  | _ => false

def isFreeVar : Atom → Bool
  | var _ _ _ index _ => index == 0
  | _ => false

/-- Kinds whose parts are compared one by one, so that a constant of such a kind may match
a subject that it does not equal. -/
def isStructured : Atom → Bool
  | sequence .. | propertySet .. | application .. => true
  | _ => false

/-- The type of an atom.  An application has the result type of its operator, if one is
declared. -/
def type : Atom → Atom
  | typeUniverse mark => typeUniverse mark
  | root .. => typeUniverse .common
  | literal _ type _ => type
  | var _ type _ _ _ => type
  | lambda .. | sequence .. | propertySet .. => any
  | operator .. => operatorType
  | application (operator ⟨_, _, _, some result, _⟩ _) _ _ _ => result
  | application .. => any

/-! ## Depth -/

mutual

/-- The height of an atom over its deepest leaf.  Types, guards and what an operator
declares do not count. -/
def depth : Atom → Nat
  | typeUniverse _ | root .. | literal .. | var .. | operator .. => 0
  | lambda parameter body _ => max parameter.depth body.depth + 1
  | sequence ⟨_, elements⟩ _ => listDepth elements + 1
  | propertySet properties _ => propertiesDepth properties + 1
  | application head argument _ _ => max head.depth argument.depth + 1

def listDepth : List Atom → Nat
  | [] => 0
  | atom :: rest => max atom.depth (listDepth rest)

def optionDepth : Option Atom → Nat
  | none => 0
  | some atom => atom.depth

def propertiesDepth : PropertySet Atom → Nat
  | ⟨a, c, i, b, d⟩ =>
    max (optionDepth a) (max (optionDepth c) (max (optionDepth i)
      (max (optionDepth b) (optionDepth d))))

end

/-! ## Constancy -/

mutual

/-- Whether no pattern variable is left in an atom.  A bound variable is constant, and so is
everything that an operator declares. -/
def isConstant : Atom → Bool
  | typeUniverse _ | root .. | literal .. | operator .. => true
  | var _ _ _ index _ => index != 0
  | lambda _ body _ => body.isConstant
  | sequence ⟨properties, elements⟩ _ => propertiesConstant properties && listConstant elements
  | propertySet properties _ => propertiesConstant properties
  | application head argument _ _ => head.isConstant && argument.isConstant

def listConstant : List Atom → Bool
  | [] => true
  | atom :: rest => atom.isConstant && listConstant rest

def optionConstant : Option Atom → Bool
  | none => true
  | some atom => atom.isConstant

def propertiesConstant : PropertySet Atom → Bool
  | ⟨a, c, i, b, d⟩ =>
    optionConstant a && optionConstant c && optionConstant i && optionConstant b &&
      optionConstant d

end

/-! ## Binding index -/

mutual

/-- The greatest index of a bound variable that an atom shows.  A lambda shows the index of
its parameter only. -/
def bindingIndex : Atom → UInt64
  | typeUniverse _ | root .. | literal .. | operator .. => 0
  | var _ _ _ index _ => index
  | lambda parameter _ _ => parameter.bindingIndex
  | sequence ⟨properties, elements⟩ _ => max (listIndex elements) (propertiesIndex properties)
  | propertySet properties _ => propertiesIndex properties
  | application head argument _ _ => max head.bindingIndex argument.bindingIndex

def listIndex : List Atom → UInt64
  | [] => 0
  | atom :: rest => max atom.bindingIndex (listIndex rest)

def optionIndex : Option Atom → UInt64
  | none => 0
  | some atom => atom.bindingIndex

def propertiesIndex : PropertySet Atom → UInt64
  | ⟨a, c, i, b, d⟩ =>
    max (optionIndex a) (max (optionIndex c) (max (optionIndex i)
      (max (optionIndex b) (optionIndex d))))

end

end Atom

end Equational
