import Horn.Yaml.Cursor

/-!
# Implicit types

A plain scalar without a tag has the type that its spelling shows: a truth value, a number, the
null value, a date, the merge sign, or else a text. `Implicit.kind` decides which; the predicates
beside it are the spellings of each type, as words of regular languages.
-/

namespace Horn
namespace Yaml

/-- The types that tags name. -/
inductive Kind where
  | null
  | bool
  | int
  | float
  | timestamp
  | text
  | merge
  | value
  | sequence
  | mapping
  | unknown
  deriving DecidableEq, Inhabited

namespace Implicit

/-- The text behind an optional sign. -/
def unsigned : List Char → List Char
  | '+' :: cs => cs
  | '-' :: cs => cs
  | cs => cs

/-- Digits and underscores, the first of them a digit of a class. -/
def digitsFrom (first : Char → Bool) (cs : List Char) : Bool :=
  match cs with
  | [] => false
  | c :: cs => first c && cs.all fun c => c.isDigit || c == '_'

/-- Whether a digit is not zero. -/
def isPositiveDigit (c : Char) : Bool := c.isDigit && c != '0'

/-- One digit, or two of which the first is below six. -/
def isSixty : List Char → Bool
  | [a] => a.isDigit
  | [a, b] => '0' ≤ a && a ≤ '5' && b.isDigit
  | _ => false

/-- The parts of a text between colons. -/
def colonParts (cs : List Char) : List (List Char) := cs.splitOn ':'

/-- The exponent of a number, with its sign, or nothing. -/
def isExponent : List Char → Bool
  | [] => true
  | e :: sign :: ds =>
    (e == 'e' || e == 'E') && (sign == '+' || sign == '-') && !ds.isEmpty && ds.all Char.isDigit
  | _ => false

/-- Digits and underscores, and behind them an exponent. -/
def isFraction (cs : List Char) : Bool :=
  isExponent (cs.dropWhile fun c => c.isDigit || c == '_')

/-- The spellings of truth values. -/
def truths : List (String × Bool) := [
  ("yes", true), ("Yes", true), ("YES", true), ("no", false), ("No", false), ("NO", false),
  ("true", true), ("True", true), ("TRUE", true),
  ("false", false), ("False", false), ("FALSE", false),
  ("on", true), ("On", true), ("ON", true), ("off", false), ("Off", false), ("OFF", false)]

/-- The spellings of the null value. -/
def nulls : List String := ["", "~", "null", "Null", "NULL"]

/-- The spellings of infinity without their sign, and those of no number. -/
def infinities : List String := [".inf", ".Inf", ".INF"]

/-- The spellings of the value that is no number. -/
def notNumbers : List String := [".nan", ".NaN", ".NAN"]

/-- Whether a text spells an integer: binary, octal, decimal, hexadecimal or in base sixty. -/
def isInt (cs : List Char) : Bool :=
  match unsigned cs with
  | '0' :: 'b' :: ds => !ds.isEmpty && ds.all fun c => c == '0' || c == '1' || c == '_'
  | '0' :: 'x' :: ds =>
    !ds.isEmpty && ds.all fun c =>
      c.isDigit || ('a' ≤ c && c ≤ 'f') || ('A' ≤ c && c ≤ 'F') || c == '_'
  | '0' :: ds => ds.all fun c => ('0' ≤ c && c ≤ '7') || c == '_'
  | ds =>
    match colonParts ds with
    | first :: rest => digitsFrom isPositiveDigit first && rest.all isSixty
    | [] => false

/-- Whether a text spells a number with a point. -/
def isFloat (cs : List Char) : Bool :=
  let ds := unsigned cs
  let whole := ds.takeWhile (· != '.')
  let fraction := (ds.dropWhile (· != '.')).drop 1
  if !ds.contains '.' then false
  else if infinities.contains (String.ofList ds) || notNumbers.contains (String.ofList cs) then true
  else if whole.isEmpty then
    cs.head? == some '.' && ((fraction.head?.map Char.isDigit).getD false) && isFraction fraction
  else
    match colonParts whole with
    | [first] => digitsFrom Char.isDigit first && isFraction fraction
    | first :: rest =>
      digitsFrom Char.isDigit first && rest.all isSixty
        && fraction.all fun c => c.isDigit || c == '_'
    | [] => false

end Implicit

end Yaml
end Horn
