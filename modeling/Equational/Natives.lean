import Equational.Operator.Application

/-!
# Standard native evaluations

A small arithmetic and logic over literals, and evaluations that give back a
part of the call itself.
-/

namespace Equational

namespace Call

def integers? (call : Call) : Option (List Int) :=
  call.arguments.elements.mapM fun atom => atom.int?.map Int64.toInt

/-- The atom bound to the first formal parameter. -/
def first? (call : Call) : Option Atom :=
  match call.operator.parameters with
  | .var name _ _ _ _ :: _ => call.bound.find? name
  | _ => none

end Call

namespace Native

/-- An integer literal, if 64 bits hold the integer. -/
def fitting? (i : Int) : Option Int :=
  if Int64.minValue.toInt ≤ i ∧ i ≤ Int64.maxValue.toInt then some i else none

/-- Folds integers from the left; every intermediate result has to fit. -/
def foldFitting (f : Int → Int → Int) (start : Int) (list : List Int) : Option Atom :=
  (list.foldlM (fun total i => fitting? (f total i)) start).map fun total =>
    .integer (Int64.ofInt total)

def standard : Natives := fun key call =>
  match key with
  | "sum" => call.integers?.bind (foldFitting (· + ·) 0)
  | "product" => call.integers?.bind (foldFitting (· * ·) 1)
  | "nonneg" => (call.first?.bind Atom.int?).map fun i => .boolean (0 ≤ i)
  | "even" => (call.first?.bind Atom.int?).map fun i => .boolean (i % 2 == 0)
  | "not" => (call.first?.bind Atom.bool?).map fun b => .boolean !b
  | "lt" =>
    match call.integers? with
    | some [a, b] => some (.boolean (a < b))
    | _ => none
  | "first" => call.first?
  | "len" => some (.integer (Int64.ofInt call.arguments.length))
  | "args" => some (.sequence call.arguments .new)
  | "names" =>
    some (.sequence (.plain (call.bound.entries.map fun entry => .symbol entry.1)) .new)
  | "wrap" => some (.sequence (.plain [call.asIs]) .new)
  | "true" => some (.boolean true)
  | _ => none

end Native

end Equational
