import Equational.PropertySet.Legal

/-!
# Failures and errors

A match that does not succeed is explained by a failure: a reason, perhaps the
pattern and the subject that it is about, perhaps a position, and the failure
behind it.  Building a term can go wrong too, and then there is an error.  A
failed guard speaks of an error and an error speaks of a failed match, so the
two are defined together.
-/

namespace Equational

mutual

/-- Why a pattern was rejected. -/
inductive Reason where
  | constantDiffers
  | patternDeeper
  | typesDiffer
  | boundVariable
  | alreadyBound (name : String) (atom : Atom)
  | typeNotAccepted
  | guardReduced (verdict : Atom)
  | guardFailed (error : TermError)
  | operatorsDiffer
  | kindsDiffer
  | propertiesDiffer
  | lengthsDiffer (patterns subjects : Nat)
  | elementsDiffer
  | notFound
  | noPermutation
  | unequalLengths (patterns subjects : Nat)
  | noGrouping
  | tooFewRuns (subjects runs : Nat)
  | noArrangement
  | subjectsLeft (subjects : Nat)
  | patternsLeft (patterns subjects : Nat)
  | lawMissing (law : Law) (value : Atom)
  | notContinued
  | emptyStream
  /-- A reason given in words. -/
  | stated (words : String)

/-- A reason with what it is about and the failure that caused it. -/
inductive Failure where
  | because (reason : Reason) (sides : Option (Atom × Atom)) (index : Option Nat)
      (prior : Option Failure)

/-- Why a term could not be built. -/
inductive TermError where
  | property (error : PropertyError)
  /-- An argument list asks for a property that the operator does not declare. -/
  | mismatch (operator : String) (law : Law) (requested : Atom) (declared : Option Atom)
  /-- The arguments do not match the formal parameters. -/
  | parameters (operator : String) (failure : Failure)
  /-- The argument does not match the parameter of a lambda. -/
  | lambdaParameter (lambda : Atom) (failure : Failure)
  | notVariable (atom : Atom)
  /-- Applications were nested more deeply than allowed. -/
  | nesting

end

namespace Failure

def reason : Failure → Reason
  | because reason _ _ _ => reason

def sides : Failure → Option (Atom × Atom)
  | because _ sides _ _ => sides

def index : Failure → Option Nat
  | because _ _ index _ => index

def prior : Failure → Option Failure
  | because _ _ _ prior => prior

def of (reason : Reason) : Failure := because reason none none none

def between (reason : Reason) (pattern subject : Atom) : Failure :=
  because reason (some (pattern, subject)) none none

def atIndex : Failure → Nat → Failure
  | because reason sides _ prior, index => because reason sides (some index) prior

def causedBy : Failure → Failure → Failure
  | because reason sides index _, prior => because reason sides index (some prior)

def rootCause : Failure → Failure
  | because reason sides index none => because reason sides index none
  | because _ _ _ (some prior) => prior.rootCause

end Failure

/-! ## Words -/

def TermError.heading : TermError → String
  | .property _ => "illegal property specification: "
  | .mismatch .. | .parameters .. | .lambdaParameter .. => "argument list error: "
  | .notVariable _ | .nesting => ""

def ticked (text : String) : String := "`" ++ text ++ "`"

mutual

def Reason.message : Reason → String
  | .constantDiffers => "constant differs from subject"
  | .patternDeeper => "pattern is deeper than subject"
  | .typesDiffer => "types do not match"
  | .boundVariable => "bound variable matches only itself"
  | .alreadyBound name atom => "$" ++ name ++ " is already bound to " ++ ticked atom.text
  | .typeNotAccepted => "subject type is not accepted by variable"
  | .guardReduced verdict => "guard reduced to " ++ ticked verdict.text
  | .guardFailed error => "guard could not be evaluated: " ++ error.heading ++ error.detail
  | .operatorsDiffer => "operators do not match"
  | .kindsDiffer => "atom kinds differ"
  | .propertiesDiffer => "sequence properties do not match"
  | .lengthsDiffer patterns subjects =>
    "cannot match " ++ Number.natText patterns ++ " patterns against " ++ Number.natText subjects
      ++ " subjects"
  | .elementsDiffer => "elements do not match"
  | .notFound => "element not found in subject list"
  | .noPermutation => "no permutation of the subject list matches"
  | .unequalLengths patterns subjects =>
    "commutative match needs equal lengths, got " ++ Number.natText patterns ++ " patterns and "
      ++ Number.natText subjects ++ " subjects"
  | .noGrouping => "no grouping of the subject list matches"
  | .tooFewRuns subjects runs =>
    "cannot group " ++ Number.natText subjects ++ " subjects into " ++ Number.natText runs
      ++ " runs"
  | .noArrangement => "no arrangement of the subject list matches"
  | .subjectsLeft subjects => Number.natText subjects ++ " subject elements left unmatched"
  | .patternsLeft patterns subjects =>
    Number.natText patterns ++ " patterns left for " ++ Number.natText subjects
      ++ " subject elements"
  | .lawMissing law value => "subject properties lack the " ++ law.name ++ " " ++ ticked value.text
  | .notContinued => "no alternative binding set could be continued"
  | .emptyStream => "empty match stream"
  | .stated words => words

/-- The reason, the two sides, the position, and the whole chain of causes. -/
def Failure.message : Failure → String
  | .because reason sides index prior =>
    reason.message
      ++ (match sides with
          | none => ""
          | some (pattern, subject) =>
            " (pattern " ++ ticked pattern.text ++ ", subject " ++ ticked subject.text ++ ")")
      ++ (match index with
          | none => ""
          | some position => " at index " ++ Number.natText position)
      ++ (match prior with
          | none => ""
          | some failure => "; caused by: " ++ failure.message)

/-- The words for an error without the heading of its kind. -/
def TermError.detail : TermError → String
  | .property error => error.message
  | .mismatch operator law requested declared =>
    operator ++ ": requested " ++ law.name ++ " " ++ ticked requested.text
      ++ " but the operator declares "
      ++ (match declared with
          | none => "none"
          | some value => ticked value.text)
  | .parameters operator failure =>
    operator
      ++ (match failure with
          | .because _ _ (some position) _ =>
            ": argument " ++ Number.natText position ++ " rejected: "
          | .because _ _ none _ => ": arguments rejected: ")
      ++ failure.message
  | .lambdaParameter lambda failure =>
    lambda.text ++ ": argument rejected: " ++ failure.message
  | .notVariable atom => "expected a variable, got " ++ ticked atom.text
  | .nesting => "applications are nested too deeply"

end

def TermError.message (error : TermError) : String := error.heading ++ error.detail

/-- The words for what lies behind an error, for the kinds that have a heading. -/
def TermError.source? (error : TermError) : Option String :=
  if error.heading.isEmpty then none else some error.detail

end Equational
