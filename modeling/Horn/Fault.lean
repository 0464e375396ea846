import Horn.Sample.Basic
import Horn.Term.Text

/-!
# Faults

Everything that can go wrong, as causes. A fault says what happened; `Fault.message` is its
wording. A fault may carry the fault that caused it, and its message ends with the message of
that cause.

Unsatisfiability is a verdict and not a fault.

Some causes come from outside the library's own rules: the logic engine refuses a term, a text is
no document, a collaborator fails with words of its own. `Fault.messageWith` lets a caller choose
the wording of such causes, wherever they appear inside a message.
-/

namespace Horn

/-- A cause of failure. -/
inductive Fault where
  -- Predicates, clauses and definitions
  | predicateTwice (name : String)
  | reducedWithoutMap (name : String)
  | mapLength (name : String)
  | mapOutside (name : String) (position : Int)
  | mapSort (name : String) (argument : Nat)
  | noSuchPredicate (index : Int)
  | wrongArity (name : String) (given expected : Nat)
  | definitionArity (expected given : Nat)
  | undefinedPredicate
  | candidateIndex (index : Int)
  | candidateSort (name : String) (fragment : Term)
  | overReleased (name : String)
  -- Look-ups by handle
  | outOfRange
  | noEntry
  -- Samples and values
  | unsupportedValue (value : Value)
  | notComparable (left right : String)
  | unknownValue
  | unsupportedSort (sort : TermSort)
  | noSampleValue (term : Term)
  | sampleArity (sample : Sample) (name : String) (expected : Nat)
  | originalArity (sample : Sample) (name : String) (expected : Nat)
  | unknownSample (action : String) (sample : Sample)
  | badNumber
  | badNumberType
  | zeroDenominator
  -- The logic engine
  | illSorted
  | noModel
  | engineUnknown
  -- Splitting and learning
  | splitNonNegative (clause : Int)
  | learnerMissing
  | splitterClosed
  | splitting (clause : Int) (cause : Fault)
  | learnerRefused (name : String) (cause : Fault)
  | learnerUndecided (name : String)
  | collaborator (kind message : String)
  -- Oracle sessions
  | cannotDeclare (session : String) (term : Term)
  | definitionsTwice (session : String)
  | definitionsMissing (session : String)
  | originalArguments (session name : String) (expected given : Nat)
  | popUnmatched (session : String)
  | undecided (session : String) (cause : Fault)
  | modelMissing (session : String) (cause : Fault)
  -- Reconstruction
  | predicateCount (original working : Nat)
  | predicateNames (index : Nat) (original working : String)
  | noConclusion (clause : Int)
  | wrongConclusion (clause : Int) (sample : Sample) (concluded wanted : String)
  | conclusionArity (clause : Int) (sample : Sample)
  | oracleFailed (clause : Int) (sample : Sample) (cause : Fault)
  | engineFailed (clause : Int) (sample : Sample) (cause : Fault)
  | valueFailed (clause : Int) (sample : Sample) (cause : Fault)
  | unreconstructable (sample : Sample) (rendered : String)
  -- Problem files
  | unparsable (name : String) (cause : Fault)
  | badScript
  | nestedQuantifier (assertion : Nat)
  | hiddenPredicate (assertion : Nat) (operator : String)
  | existential (formula : Term)
  -- Configuration and files
  | unreadableConfig (path : String) (cause : Fault)
  | badDocument
  | configNotMapping (path : String)
  | notMapping
  | timeoutNotInteger (cause : Fault)
  | timeoutTooLarge
  | unknownLevel (level : String)
  | fileMissing (path : String)
  | isDirectory (path : String)
  | notDirectory (path : String)
  | notText
  deriving Inhabited

namespace Fault

/-- The message of a fault, in which `wording` replaces the library's words for some causes. -/
def messageWith (wording : Fault → Option String) (fault : Fault) : String :=
  match wording fault with
  | some text => text
  | none =>
    match fault with
    | predicateTwice name => "predicate " ++ name ++ " declared twice"
    | reducedWithoutMap name =>
      "predicate " ++ name ++ ": reduced signature without a position map"
    | mapLength name => "predicate " ++ name ++ ": position map does not match its signature"
    | mapOutside name position =>
      "predicate " ++ name ++ ": position " ++ toString position ++ " out of the original signature"
    | mapSort name argument =>
      "predicate " ++ name ++ ": sort mismatch at position " ++ toString argument
    | noSuchPredicate index => "unknown predicate index " ++ toString index
    | wrongArity name given expected =>
      "predicate " ++ name ++ " applied to " ++ toString given ++ " argument(s), expected "
        ++ toString expected
    | definitionArity expected given =>
      "definition expects " ++ toString expected ++ " argument(s), got " ++ toString given
    | undefinedPredicate => "the predicate has no definition"
    | candidateIndex index => "candidate for unknown predicate index " ++ toString index
    | candidateSort name fragment =>
      "candidate for " ++ name ++ " is not a boolean: " ++ fragment.text
    | overReleased name =>
      "instance " ++ Text.quoted name ++ " released more often than retained"
    | outOfRange => "index out of range"
    | noEntry => "no entry for this handle"
    | unsupportedValue value => "unsupported sample value " ++ value.quoted
    | notComparable left right =>
      "'<' not supported between instances of " ++ Text.quoted left ++ " and " ++ Text.quoted right
    | unknownValue => "cannot convert an unknown value to a z3 constant"
    | unsupportedSort sort => "unsupported sort " ++ sort.text ++ " for sample values"
    | noSampleValue term => "cannot convert " ++ term.text ++ " to a sample value"
    | sampleArity sample name expected =>
      "sample " ++ sample.text ++ " has " ++ toString sample.args.length
        ++ " argument(s), predicate " ++ name ++ " expects " ++ toString expected
    | originalArity sample name expected =>
      "sample " ++ sample.text ++ " has " ++ toString sample.args.length
        ++ " argument(s), predicate " ++ name ++ " originally has " ++ toString expected
    | unknownSample action sample =>
      "trying to " ++ action ++ " unknown positive sample " ++ sample.text
    | badNumber => "the text is not a number"
    | zeroDenominator => "the denominator is zero"
    | badNumberType => "the value is not a number"
    | illSorted => "an application does not fit its arguments"
    | noModel => "there is no model"
    | engineUnknown => "the query was not decided"
    | splitNonNegative clause => "cannot split on non-negative clause #" ++ toString clause
    | learnerMissing => "inference mode requires a learner"
    | splitterClosed => "the splitter has let go of its instance"
    | splitting clause cause =>
      "while splitting on negative clause #" ++ toString clause ++ ": "
        ++ messageWith wording cause
    | learnerRefused name cause => "spacer error on " ++ name ++ ": " ++ messageWith wording cause
    | learnerUndecided name => "spacer returned unknown on " ++ name
    | collaborator _ message => message
    | cannotDeclare session term =>
      "[" ++ session ++ "] cannot declare non-constant " ++ term.text
    | definitionsTwice session => "[" ++ session ++ "] definitions already written"
    | definitionsMissing session => "[" ++ session ++ "] no predicate definitions written"
    | originalArguments session name expected given =>
      "[" ++ session ++ "] " ++ name ++ " expects " ++ toString expected
        ++ " original argument(s), got " ++ toString given
    | popUnmatched session => "[" ++ session ++ "] pop without matching push"
    | undecided session cause =>
      "[" ++ session ++ "] solver returned unknown: " ++ messageWith wording cause
    | modelMissing session cause =>
      "[" ++ session ++ "] no model available: " ++ messageWith wording cause
    | predicateCount original working =>
      "original instance has " ++ toString original ++ " predicate(s), working instance has "
        ++ toString working
    | predicateNames index original working =>
      "predicate #" ++ toString index ++ " is " ++ original ++ " in the original instance but "
        ++ working ++ " in the working instance"
    | noConclusion clause =>
      "proof reconstruction, illegal clause-level call on clause #" ++ toString clause
        ++ " (no rhs)"
    | wrongConclusion clause _ concluded wanted =>
      "clause #" ++ toString clause ++ " concludes " ++ concluded ++ ", not " ++ wanted
    | conclusionArity clause sample =>
      "sample " ++ sample.text ++ " does not match the original signature of clause #"
        ++ toString clause
    | oracleFailed clause sample cause =>
      "oracle failure on clause #" ++ toString clause ++ " for sample " ++ sample.text ++ ": "
        ++ messageWith wording cause
    | engineFailed clause sample cause =>
      "z3 failure on clause #" ++ toString clause ++ " for sample " ++ sample.text ++ ": "
        ++ messageWith wording cause
    | valueFailed clause sample cause =>
      "unsupported value on clause #" ++ toString clause ++ " for sample " ++ sample.text ++ ": "
        ++ messageWith wording cause
    | unreconstructable _ rendered => "could not reconstruct sample " ++ rendered
    | unparsable name cause => "cannot parse " ++ name ++ ": " ++ messageWith wording cause
    | badScript => "the script is malformed"
    | nestedQuantifier assertion =>
      "assertion #" ++ toString assertion ++ ": nested quantifier in side condition"
    | hiddenPredicate assertion operator =>
      "assertion #" ++ toString assertion ++ ": predicate application under " ++ operator
    | existential formula => "existential quantifier at clause level: " ++ formula.text
    | unreadableConfig path cause => "cannot parse " ++ path ++ ": " ++ messageWith wording cause
    | badDocument => "the document is malformed"
    | configNotMapping path => path ++ ": expected a mapping at top level"
    | notMapping => "the section is not a mapping"
    | timeoutNotInteger cause =>
      "reconstruction timeout must be an integer: " ++ messageWith wording cause
    | timeoutTooLarge => "the timeout is not finite"
    | unknownLevel level => "unknown logging level " ++ Text.quoted level
    | fileMissing path => "[Errno 2] No such file or directory: " ++ Text.quoted path
    | isDirectory path => "[Errno 21] Is a directory: " ++ Text.quoted path
    | notDirectory path => "[Errno 20] Not a directory: " ++ Text.quoted path
    | notText => "the file is not a text"

/-- The message of a fault in the library's own words. -/
def message (fault : Fault) : String := fault.messageWith fun _ => none

end Fault

end Horn
