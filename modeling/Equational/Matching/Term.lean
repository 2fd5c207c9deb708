import Equational.Matching.Associative

/-!
# Matching atoms

The matcher of an atom is put together from the matchers of its parts.  A
pattern variable takes any subject whose type its own type accepts, provided
that its guard, under the extended bindings, rewrites to `true`; a constant
without parts matches its equals; anything else is matched part by part, after
its type.  The matchers of parts are put together only when they are asked.
-/

namespace Equational

abbrev GuardEvaluator := Bindings → Atom → Evaluation Atom

namespace Matcher

def always : Matcher := fun _ binds => .of (.found binds)

def failBetween (reason : Reason) (pattern subject : Atom) : Traced Outcome :=
  .of (.failed (.between reason pattern subject))

/-- A bound variable matches only itself. -/
def ofBound (pattern : Atom) : Matcher := fun subject binds =>
  if pattern == subject then .of (.found binds) else failBetween .boundVariable pattern subject

/-- A constant without parts matches its equals. -/
def ofLeaf (pattern : Atom) : Matcher := fun subject binds =>
  if pattern == subject then .of (.found binds) else failBetween .constantDiffers pattern subject

/-- Binds a name to a subject, or compares the subject with the atom already bound; a new
binding has to satisfy the guard. -/
def bind (evaluate : GuardEvaluator) (pattern : Atom) (name : String) (guard : Option Atom) :
    Matcher := fun subject binds =>
  match binds.find? name with
  | some existing =>
    if existing == subject then .of (.found binds)
    else failBetween (.alreadyBound name existing) pattern subject
  | none =>
    let extended := binds.insert name subject
    match guard with
    | none => .of (.found extended)
    | some condition =>
      (Traced.ofEvaluation (evaluate extended condition)).andThen fun verdict =>
        match verdict with
        | .error error => failBetween (.guardFailed error) pattern subject
        | .ok atom =>
          if atom.bool? == some true then .of (.found extended)
          else failBetween (.guardReduced atom) pattern subject

/-- A pattern variable.  Met with itself it binds nothing, but must not be bound to anything
else. -/
def ofFree (evaluate : GuardEvaluator) (pattern : Atom) (name : String) (guard : Option Atom)
    (type : Matcher) : Matcher := fun subject binds =>
  if pattern == subject then
    match binds.find? name with
    | some existing =>
      if existing == subject then .of (.found binds)
      else failBetween (.alreadyBound name existing) pattern subject
    | none => .of (.found binds)
  else
    ((type subject.type binds).mapFailure fun failure =>
        (Failure.between .typeNotAccepted pattern subject).causedBy failure)
      |>.continued fun binds => bind evaluate pattern name guard subject binds

/-- A pattern with parts: an equal constant matches at once; else the depths are compared,
then the types, then the parts. -/
def ofStructure (pattern : Atom) (type parts : Matcher) : Matcher := fun subject binds =>
  let matchParts : Unit → Traced Outcome := fun _ =>
    if subject.depth < pattern.depth then failBetween .patternDeeper pattern subject
    else
      ((type subject.type binds).mapFailure fun failure =>
          (Failure.between .typesDiffer pattern subject).causedBy failure)
        |>.continued fun binds => parts subject binds
  if pattern.isConstant then
    if pattern == subject then .of (.found binds)
    else if pattern.isStructured then matchParts ()
    else failBetween .constantDiffers pattern subject
  else matchParts ()

/-- The type of atoms that have no other type accepts everything. -/
def anyType : Matcher := watched .any always

/-! ## Parts -/

def lambdaParts (pattern : Atom) (parameter body : Element) : Matcher := fun subject binds =>
  match subject with
  | .lambda subjectParameter subjectBody _ =>
    Element.matchAll [parameter, body] [subjectParameter, subjectBody] binds
  | _ => failBetween .kindsDiffer pattern subject

/-- A sequence; runs are wrapped up as sequences of the subject's properties. -/
def sequenceParts (pattern : Atom) (elements : Sequence Element) : Matcher :=
  fun subject binds =>
    match subject with
    | .sequence s _ => Sequence.matchUnder (.sequence s.properties) elements s binds
    | _ => failBetween .kindsDiffer pattern subject

def propertyParts (pattern : Atom) (laws : PropertySet Element) : Matcher :=
  fun subject binds =>
    match subject with
    | .propertySet properties _ => laws.matchLaws properties binds
    | _ => failBetween .kindsDiffer pattern subject

/-- Head, then argument.  Two argument lists are matched as sequences, and runs are wrapped
up with the subject's head if that is an operator. -/
def applicationParts (pattern : Atom) (head argument : Matcher)
    (arguments : Option (Sequence Element)) : Matcher := fun subject binds =>
  match subject with
  | .application subjectHead subjectArgument _ _ =>
    ((head subjectHead binds).mapFailure fun failure =>
        (Failure.between .operatorsDiffer pattern subject).causedBy failure)
      |>.continued fun binds =>
        match arguments, subjectArgument with
        | some elements, .sequence s _ =>
          let wrapper : Wrapper :=
            if subjectHead.operator?.isSome then .application subjectHead s.properties
            else .sequence s.properties
          Sequence.matchUnder wrapper elements s binds
        | _, _ => argument subjectArgument binds
  | _ => failBetween .kindsDiffer pattern subject

end Matcher

namespace Atom

open Matcher

mutual

/-- The matcher of an atom, without the attempt and the verdict on the atom itself. -/
def search (evaluate : GuardEvaluator) : Atom → Matcher
  | typeUniverse mark => ofLeaf (typeUniverse mark)
  | root name mark => if (root name mark).isAny then always else ofLeaf (root name mark)
  | literal value type mark => ofLeaf (literal value type mark)
  | operator op mark => ofLeaf (operator op mark)
  | var name type guard index mark =>
    if index != 0 then ofBound (var name type guard index mark)
    else ofFree evaluate (var name type guard index mark) name guard
      (fun subject binds => watched type (search evaluate type) subject binds)
  | lambda parameter body mark =>
    ofStructure (lambda parameter body mark) anyType
      (lambdaParts (lambda parameter body mark)
        ⟨parameter, fun subject binds =>
          watched parameter (search evaluate parameter) subject binds⟩
        ⟨body, fun subject binds => watched body (search evaluate body) subject binds⟩)
  | sequence ⟨properties, elements⟩ mark =>
    ofStructure (sequence ⟨properties, elements⟩ mark) anyType
      (sequenceParts (sequence ⟨properties, elements⟩ mark)
        ⟨lawElements evaluate properties, listElements evaluate elements⟩)
  | propertySet properties mark =>
    ofStructure (propertySet properties mark) anyType
      (propertyParts (propertySet properties mark) (lawElements evaluate properties))
  | application head argument bound mark =>
    ofStructure (application head argument bound mark)
      (match head with
        | operator ⟨_, _, _, some result, _⟩ _ => fun subject binds =>
          watched result (search evaluate result) subject binds
        | _ => anyType)
      (applicationParts (application head argument bound mark)
        (fun subject binds => watched head (search evaluate head) subject binds)
        (fun subject binds => watched argument (search evaluate argument) subject binds)
        (match argument with
          | sequence ⟨properties, elements⟩ _ =>
            some ⟨lawElements evaluate properties, listElements evaluate elements⟩
          | _ => none))

def listElements (evaluate : GuardEvaluator) : List Atom → List Element
  | [] => []
  | atom :: rest =>
    ⟨atom, fun subject binds => watched atom (search evaluate atom) subject binds⟩
      :: listElements evaluate rest

def optionElement (evaluate : GuardEvaluator) : Option Atom → Option Element
  | none => none
  | some atom =>
    some ⟨atom, fun subject binds => watched atom (search evaluate atom) subject binds⟩

def lawElements (evaluate : GuardEvaluator) : PropertySet Atom → PropertySet Element
  | ⟨a, c, i, b, d⟩ =>
    ⟨optionElement evaluate a, optionElement evaluate c, optionElement evaluate i,
      optionElement evaluate b, optionElement evaluate d⟩

end

def headType (evaluate : GuardEvaluator) : Atom → Matcher
  | operator ⟨_, _, _, some result, _⟩ _ => fun subject binds =>
    watched result (search evaluate result) subject binds
  | _ => anyType

def argumentElements (evaluate : GuardEvaluator) : Atom → Option (Sequence Element)
  | sequence ⟨properties, elements⟩ _ =>
    some ⟨lawElements evaluate properties, listElements evaluate elements⟩
  | _ => none

/-! ## Equations -/

section

variable (evaluate : GuardEvaluator)

theorem search_typeUniverse (mark : Mark) :
    search evaluate (typeUniverse mark) = ofLeaf (typeUniverse mark) := rfl

theorem search_root (name : String) (mark : Mark) :
    search evaluate (root name mark) =
      if (root name mark).isAny then always else ofLeaf (root name mark) := rfl

theorem search_literal (value : Literal) (type : Atom) (mark : Mark) :
    search evaluate (literal value type mark) = ofLeaf (literal value type mark) := rfl

theorem search_operator (op : Operator Atom) (mark : Mark) :
    search evaluate (operator op mark) = ofLeaf (operator op mark) := rfl

theorem search_var (name : String) (type : Atom) (guard : Option Atom) (index : UInt64)
    (mark : Mark) :
    search evaluate (var name type guard index mark) =
      if index != 0 then ofBound (var name type guard index mark)
      else ofFree evaluate (var name type guard index mark) name guard
        (watched type (search evaluate type)) := rfl

theorem search_lambda (parameter body : Atom) (mark : Mark) :
    search evaluate (lambda parameter body mark) =
      ofStructure (lambda parameter body mark) anyType
        (lambdaParts (lambda parameter body mark)
          ⟨parameter, watched parameter (search evaluate parameter)⟩
          ⟨body, watched body (search evaluate body)⟩) := rfl

theorem search_sequence (properties : Properties) (elements : List Atom) (mark : Mark) :
    search evaluate (sequence ⟨properties, elements⟩ mark) =
      ofStructure (sequence ⟨properties, elements⟩ mark) anyType
        (sequenceParts (sequence ⟨properties, elements⟩ mark)
          ⟨lawElements evaluate properties, listElements evaluate elements⟩) := rfl

theorem search_propertySet (properties : Properties) (mark : Mark) :
    search evaluate (propertySet properties mark) =
      ofStructure (propertySet properties mark) anyType
        (propertyParts (propertySet properties mark) (lawElements evaluate properties)) := rfl

theorem search_application (head argument : Atom) (bound : Bindings) (mark : Mark) :
    search evaluate (application head argument bound mark) =
      ofStructure (application head argument bound mark) (headType evaluate head)
        (applicationParts (application head argument bound mark)
          (watched head (search evaluate head)) (watched argument (search evaluate argument))
          (argumentElements evaluate argument)) := by
  cases head with
  | operator op =>
      rcases op with ⟨name, properties, parameters, resultType, native⟩
      cases resultType <;> cases argument <;> rfl
  | _ => cases argument <;> rfl

theorem listElements_cons (atom : Atom) (rest : List Atom) :
    listElements evaluate (atom :: rest) =
      ⟨atom, watched atom (search evaluate atom)⟩ :: listElements evaluate rest := rfl

end

def matchWith (evaluate : GuardEvaluator) (pattern : Atom) : Matcher :=
  watched pattern (search evaluate pattern)

def element (evaluate : GuardEvaluator) (pattern : Atom) : Element :=
  ⟨pattern, matchWith evaluate pattern⟩

end Atom

namespace Sequence

def pattern (evaluate : GuardEvaluator) (s : Sequence Atom) : Sequence Element :=
  ⟨Atom.lawElements evaluate s.properties, Atom.listElements evaluate s.elements⟩

end Sequence

end Equational
