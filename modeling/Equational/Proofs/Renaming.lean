import Equational.Proofs.Scopes

/-!
# Renaming bound variables

Two terms are alpha-equivalent if they differ in nothing but the names of the
variables that their lambdas bind, where a bound variable belongs to the nearest
lambda around it that carries its index.  A lambda that is made around a body
gets an index one above the greatest in the body.  Of terms in which all lambdas
are numbered so, those that are alpha-equivalent are equal.  An argument that is
put under a lambda may leave a term whose lambdas are not numbered so.
-/

namespace Equational

namespace Atom

/-!
## Alpha-equivalence
-/

/-- The indices of the lambdas around two terms, those of the nearest lambdas first. -/
abbrev Scope := List (UInt64 × UInt64)

mutual

/-- Two atoms are the same up to the names of the variables that are bound in them, or by lambdas
around them. -/
inductive Alpha : Scope → Atom → Atom → Prop
  | typeUniverse {scope : Scope} {mark mark' : Mark} :
      Alpha scope (typeUniverse mark) (typeUniverse mark')
  | root {scope : Scope} {name : String} {mark mark' : Mark} :
      Alpha scope (root name mark) (root name mark')
  | literal {scope : Scope} {value : Literal} {type type' : Atom} {mark mark' : Mark}
      (htype : Alpha scope type type') :
      Alpha scope (literal value type mark) (literal value type' mark')
  | free {scope : Scope} {name : String} {type type' : Atom} {guard guard' : Option Atom}
      {mark mark' : Mark} (htype : Alpha scope type type')
      (hguard : AlphaOption scope guard guard') :
      Alpha scope (var name type guard 0 mark) (var name type' guard' 0 mark')
  /-- Both variables belong to the lambdas at one place around them. -/
  | bound {scope : Scope} {name name' : String} {type type' : Atom} {guard guard' : Option Atom}
      {index index' : UInt64} {mark mark' : Mark} (place : Nat)
      (hplace : (scope.map Prod.fst).idxOf? index = some place)
      (hplace' : (scope.map Prod.snd).idxOf? index' = some place)
      (htype : Alpha scope type type') (hguard : AlphaOption scope guard guard') :
      Alpha scope (var name type guard index mark) (var name' type' guard' index' mark')
  | lambda {scope : Scope} {name name' : String} {type type' : Atom}
      {guard guard' : Option Atom} {index index' : UInt64} {body body' : Atom}
      {mark mark' lambdaMark lambdaMark' : Mark} (htype : Alpha scope type type')
      (hguard : AlphaOption ((index, index') :: scope) guard guard')
      (hbody : Alpha ((index, index') :: scope) body body') :
      Alpha scope (lambda (var name type guard index mark) body lambdaMark)
        (lambda (var name' type' guard' index' mark') body' lambdaMark')
  | sequence {scope : Scope} {properties properties' : Properties} {elements elements' : List Atom}
      {mark mark' : Mark} (hproperties : AlphaProperties scope properties properties')
      (helements : AlphaList scope elements elements') :
      Alpha scope (sequence ⟨properties, elements⟩ mark) (sequence ⟨properties', elements'⟩ mark')
  | propertySet {scope : Scope} {properties properties' : Properties} {mark mark' : Mark}
      (hproperties : AlphaProperties scope properties properties') :
      Alpha scope (propertySet properties mark) (propertySet properties' mark')
  | operator {scope : Scope} {name : String} {properties properties' : Properties}
      {parameters parameters' : List Atom} {resultType resultType' : Option Atom}
      {native native' : Option String} {mark mark' : Mark}
      (hproperties : AlphaProperties scope properties properties')
      (hparameters : AlphaList scope parameters parameters')
      (hresult : AlphaOption scope resultType resultType') :
      Alpha scope (operator ⟨name, properties, parameters, resultType, native⟩ mark)
        (operator ⟨name, properties', parameters', resultType', native'⟩ mark')
  | application {scope : Scope} {head head' argument argument' : Atom} {bound bound' : Bindings}
      {mark mark' : Mark} (hhead : Alpha scope head head')
      (hargument : Alpha scope argument argument') :
      Alpha scope (application head argument bound mark) (application head' argument' bound' mark')

inductive AlphaList : Scope → List Atom → List Atom → Prop
  | nil {scope : Scope} : AlphaList scope [] []
  | cons {scope : Scope} {atom atom' : Atom} {rest rest' : List Atom}
      (hatom : Alpha scope atom atom') (hrest : AlphaList scope rest rest') :
      AlphaList scope (atom :: rest) (atom' :: rest')

inductive AlphaOption : Scope → Option Atom → Option Atom → Prop
  | none {scope : Scope} : AlphaOption scope none none
  | some {scope : Scope} {atom atom' : Atom} (hatom : Alpha scope atom atom') :
      AlphaOption scope (some atom) (some atom')

inductive AlphaProperties : Scope → Properties → Properties → Prop
  | mk {scope : Scope} {a c i b d a' c' i' b' d' : Option Atom} (ha : AlphaOption scope a a')
      (hc : AlphaOption scope c c') (hi : AlphaOption scope i i') (hb : AlphaOption scope b b')
      (hd : AlphaOption scope d d') : AlphaProperties scope ⟨a, c, i, b, d⟩ ⟨a', c', i', b', d'⟩

end

/-!
## The index scheme

Terms that differ in the names of bound variables only have the same height, and the height of its
body gives a numbered lambda its index.
-/

mutual

/-- How many lambdas lie within one another at most, seen as binding indices are: not through types,
guards and operators. -/
def height : Atom → Nat
  | typeUniverse _ | root .. | literal .. | var .. | operator .. => 0
  | lambda _ body _ => height body + 1
  | sequence ⟨properties, elements⟩ _ => max (listHeight elements) (propertiesHeight properties)
  | propertySet properties _ => propertiesHeight properties
  | application head argument _ _ => max (height head) (height argument)

def listHeight : List Atom → Nat
  | [] => 0
  | atom :: rest => max (height atom) (listHeight rest)

def optionHeight : Option Atom → Nat
  | none => 0
  | some atom => height atom

def propertiesHeight : PropertySet Atom → Nat
  | ⟨a, c, i, b, d⟩ =>
    max (optionHeight a) (max (optionHeight c) (max (optionHeight i)
      (max (optionHeight b) (optionHeight d))))

end

/-- A bound variable has the name of its index, and the index of a lambda is one above the height of
its body. -/
def Numbered : Atom → Prop
  | var name _ _ index _ => index ≠ 0 → name = ":" ++ Number.natText index.toNat
  | lambda parameter body _ => parameter.bindingIndex.toNat = height body + 1
  | _ => True

mutual

theorem Alpha.height_eq : ∀ {scope : Scope} {a b : Atom}, Alpha scope a b → height a = height b
  | _, _, _, .typeUniverse => rfl
  | _, _, _, .root => rfl
  | _, _, _, .literal _ => rfl
  | _, _, _, .free _ _ => rfl
  | _, _, _, .bound .. => rfl
  | _, _, _, .lambda _ _ hbody => congrArg Nat.succ hbody.height_eq
  | _, _, _, .sequence hproperties helements => by
      rw [height, height, helements.height_eq, hproperties.height_eq]
  | _, _, _, .propertySet hproperties => hproperties.height_eq
  | _, _, _, .operator _ _ _ => rfl
  | _, _, _, .application hhead hargument => by
      rw [height, height, hhead.height_eq, hargument.height_eq]

theorem AlphaList.height_eq : ∀ {scope : Scope} {list other : List Atom},
    AlphaList scope list other → listHeight list = listHeight other
  | _, _, _, .nil => rfl
  | _, _, _, .cons hatom hrest => by
      rw [listHeight, listHeight, hatom.height_eq, hrest.height_eq]

theorem AlphaOption.height_eq : ∀ {scope : Scope} {value other : Option Atom},
    AlphaOption scope value other → optionHeight value = optionHeight other
  | _, _, _, .none => rfl
  | _, _, _, .some hatom => hatom.height_eq

theorem AlphaProperties.height_eq : ∀ {scope : Scope} {properties other : Properties},
    AlphaProperties scope properties other → propertiesHeight properties = propertiesHeight other
  | _, _, _, .mk ha hc hi hb hd => by
      rw [propertiesHeight, propertiesHeight, ha.height_eq, hc.height_eq, hi.height_eq,
        hb.height_eq, hd.height_eq]

end

/-!
## Numbered terms
-/

def Scope.Agrees (scope : Scope) : Prop := ∀ pair ∈ scope, pair.1 = pair.2 ∧ pair.1 ≠ 0

theorem getElem?_of_idxOf? {indices : List UInt64} {index : UInt64} {place : Nat}
    (h : indices.idxOf? index = some place) : indices[place]? = some index := by
  rcases List.findIdx?_eq_some_iff_getElem.mp h with ⟨hplace, hindex, -⟩
  rw [List.getElem?_eq_getElem hplace, eq_of_beq hindex]

theorem Scope.Agrees.index_eq {scope : Scope} (h : scope.Agrees) {place : Nat}
    {index index' : UInt64} (hplace : (scope.map Prod.fst).idxOf? index = some place)
    (hplace' : (scope.map Prod.snd).idxOf? index' = some place) : index = index' ∧ index ≠ 0 := by
  have hmap : scope.map Prod.snd = scope.map Prod.fst :=
    List.map_congr_left fun pair hpair => (h pair hpair).1.symm
  rw [hmap] at hplace'
  have hindex := getElem?_of_idxOf? hplace
  have hindex' := getElem?_of_idxOf? hplace'
  have hmem := List.mem_of_getElem? hindex
  rw [List.mem_map] at hmem
  rcases hmem with ⟨pair, hpair, rfl⟩
  exact ⟨Option.some.inj (hindex.symm.trans hindex'), (h pair hpair).2⟩

theorem Scope.Agrees.cons {scope : Scope} (h : scope.Agrees) {index index' : UInt64}
    (hindex : index = index') (hne : index ≠ 0) : Scope.Agrees ((index, index') :: scope) :=
  List.forall_mem_cons.mpr ⟨⟨hindex, hne⟩, h⟩

mutual

/-- Numbered terms that are the same up to the names of bound variables are the same term: lambdas
at one place have the same height, and so the same index. -/
theorem Alpha.sameTerm : ∀ {scope : Scope} {a b : Atom}, Alpha scope a b → scope.Agrees →
    a.Everywhere Numbered → b.Everywhere Numbered → SameTerm a b
  | _, _, _, .typeUniverse => fun _ _ _ => rfl
  | _, _, _, .root => fun _ _ _ => rfl
  | _, _, _, .literal htype => fun hscope ha hb => by
      have htype := htype.sameTerm hscope ha.2 hb.2
      rw [SameTerm, Like, bare, bare, htype]
  | _, _, _, .free htype hguard => fun hscope ha hb => by
      have htype := htype.sameTerm hscope ha.2.1 hb.2.1
      have hguard := hguard.bare_eq hscope ha.2.2 hb.2.2
      rw [SameTerm, Like, bare, bare, htype, hguard]
  | _, _, _, .bound place hplace hplace' htype hguard => fun hscope ha hb => by
      have htype := htype.sameTerm hscope ha.2.1 hb.2.1
      have hguard := hguard.bare_eq hscope ha.2.2 hb.2.2
      rcases hscope.index_eq hplace hplace' with ⟨rfl, hne⟩
      rw [SameTerm, Like, bare, bare, htype, hguard, ha.1 hne, hb.1 hne]
  | _, _, _, @Alpha.lambda _ _ _ _ _ _ _ index index' _ _ _ _ _ _ htype hguard hbody =>
      fun hscope ha hb => by
      have hindex : index = index' :=
        UInt64.toNat_inj.mp (ha.1.trans ((congrArg Nat.succ hbody.height_eq).trans hb.1.symm))
      have hne : index ≠ 0 := by
        rintro rfl
        exact absurd ha.1.symm (Nat.succ_ne_zero _)
      have hinner := hscope.cons hindex hne
      have htype := htype.sameTerm hscope ha.2.1.2.1 hb.2.1.2.1
      have hguard := hguard.bare_eq hinner ha.2.1.2.2 hb.2.1.2.2
      have hbody := hbody.sameTerm hinner ha.2.2 hb.2.2
      have hname := ha.2.1.1 hne
      have hname' := hb.2.1.1 (hindex ▸ hne)
      rw [SameTerm, Like, bare, bare, bare, bare, htype, hguard, hbody, hname, hname', hindex]
  | _, _, _, .sequence hproperties helements => fun hscope ha hb => by
      have hproperties := hproperties.bare_eq hscope ha.2.1 hb.2.1
      have helements := helements.bare_eq hscope ha.2.2 hb.2.2
      rw [SameTerm, Like, bare, bare, hproperties, helements]
  | _, _, _, .propertySet hproperties => fun hscope ha hb => by
      have hproperties := hproperties.bare_eq hscope ha.2 hb.2
      rw [SameTerm, Like, bare, bare, hproperties]
  | _, _, _, .operator hproperties hparameters hresult => fun hscope ha hb => by
      have hproperties := hproperties.bare_eq hscope ha.2.1 hb.2.1
      have hparameters := hparameters.bare_eq hscope ha.2.2.1 hb.2.2.1
      have hresult := hresult.bare_eq hscope ha.2.2.2 hb.2.2.2
      rw [SameTerm, Like, bare, bare, hproperties, hparameters, hresult]
  | _, _, _, .application hhead hargument => fun hscope ha hb => by
      have hhead := hhead.sameTerm hscope ha.2.1 hb.2.1
      have hargument := hargument.sameTerm hscope ha.2.2 hb.2.2
      rw [SameTerm, Like, bare, bare, hhead, hargument]

theorem AlphaList.bare_eq : ∀ {scope : Scope} {list other : List Atom},
    AlphaList scope list other → scope.Agrees → ListEverywhere Numbered list →
    ListEverywhere Numbered other → listBare (fun _ => none) list = listBare (fun _ => none) other
  | _, _, _, .nil => fun _ _ _ => rfl
  | _, _, _, .cons hatom hrest => fun hscope hlist hother => by
      have hatom := hatom.sameTerm hscope hlist.1 hother.1
      rw [listBare, listBare, hatom, hrest.bare_eq hscope hlist.2 hother.2]

theorem AlphaOption.bare_eq : ∀ {scope : Scope} {value other : Option Atom},
    AlphaOption scope value other → scope.Agrees → OptionEverywhere Numbered value →
    OptionEverywhere Numbered other →
    optionBare (fun _ => none) value = optionBare (fun _ => none) other
  | _, _, _, .none => fun _ _ _ => rfl
  | _, _, _, .some hatom => fun hscope hvalue hother =>
      congrArg some (hatom.sameTerm hscope hvalue hother)

theorem AlphaProperties.bare_eq : ∀ {scope : Scope} {properties other : Properties},
    AlphaProperties scope properties other → scope.Agrees →
    PropertiesEverywhere Numbered properties → PropertiesEverywhere Numbered other →
    propertiesBare (fun _ => none) properties = propertiesBare (fun _ => none) other
  | _, _, _, .mk ha hc hi hb hd => fun hscope h h' => by
      rw [propertiesBare, propertiesBare, ha.bare_eq hscope h.1 h'.1,
        hc.bare_eq hscope h.2.1 h'.2.1, hi.bare_eq hscope h.2.2.1 h'.2.2.1,
        hb.bare_eq hscope h.2.2.2.1 h'.2.2.2.1, hd.bare_eq hscope h.2.2.2.2 h'.2.2.2.2]

end

/-- Numbered lambdas that are alpha-equivalent are equal. -/
theorem beq_of_alpha {a b : Atom} (h : Alpha [] a b) (ha : a.Everywhere Numbered)
    (hb : b.Everywhere Numbered) : (a == b) = true :=
  beq_of_bare_eq (h.sameTerm (fun _ hpair => absurd hpair List.not_mem_nil) ha hb)

end Atom

/-!
## Lambdas of an engine
-/

namespace Engine

open Atom

theorem alpha_constant (place other : Place) : Alpha [] (constant place) (constant other) := by
  refine .lambda .root .none (.lambda .root .none ?_)
  exact .bound 1 rfl rfl .root .none

theorem numbered_constant (place : Place) : (constant place).Everywhere Numbered := by
  have hbound : ∀ index, (bound place index).Everywhere Numbered := fun index =>
    ⟨fun _ => rfl, trivial, trivial⟩
  exact ⟨rfl, hbound 2, rfl, hbound 1, hbound 2⟩

theorem beq_of_alpha_constant :
    Alpha [] (constant []) (constant [7]) ∧ (constant []).Everywhere Numbered ∧
      (constant [7]).Everywhere Numbered ∧ (constant [] == constant [7]) = true :=
  ⟨alpha_constant [] [7], numbered_constant [], numbered_constant [7],
    beq_of_alpha (alpha_constant [] [7]) (numbered_constant []) (numbered_constant [7])⟩

def ignoring : Atom := .lambda (bound [] 2) (identity .new) .new

theorem lambda_ignoring : ((idle.lambda (.free "z" .any) (.free "z" .any)) >>=
    idle.lambda (.free "y" .any)).result = .ok ignoring := rfl

/-- The same lambda, once made around a lambda and once by putting the lambda under another. -/
theorem apply_not_numbered :
    ((idle.lambda (.free "y" .any) (.free "x" .any)) >>=
      idle.lambda (.free "x" .any)).result = .ok (constant []) ∧
    (idle.lambda (.free "z" .any) (.free "z" .any)).result = .ok (identity .new) ∧
    (idle.apply (constant []) (identity .new)).result = .ok constantIdentity ∧
    ((idle.lambda (.free "z" .any) (.free "z" .any)) >>=
      idle.lambda (.free "y" .any)).result = .ok ignoring ∧
    Alpha [] constantIdentity ignoring ∧ (constantIdentity == ignoring) = false := by
  refine ⟨lambda_constant [], lambda_identity, apply_constant, lambda_ignoring, ?_, ?_⟩
  · refine .lambda .root .none (.lambda .root .none ?_)
    exact .bound 0 rfl rfl .root .none
  · decide +kernel

end Engine

end Equational
