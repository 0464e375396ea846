import Horn.Text.Integer

/-!
# Reading ratios

A reader of rational numbers: an integer, a fraction such as `-7/3`, or a decimal number with or
without an exponent, such as `.5` or `25e-1`. Blanks may stand around the number, and single
underscores between digits.

`Text.ratio?` answers with numerator and denominator as they are written, since a denominator may be
zero.
-/

namespace Horn
namespace Text

/-- The digits, and what separates them, at the start of a text, and the rest. -/
def spanDigits (cs : List Char) : List Char × List Char :=
  cs.span fun c => c == '_' || (digit? c).isSome

/-- The value and the number of digits of a possibly empty run of digits. -/
def run? (cs : List Char) : Option (Nat × Nat) :=
  if cs.isEmpty then some (0, 0)
  else (digitsValue? true 0 cs).map fun n => (n, (cs.filter (· != '_')).length)

/-- An exponent, with or without a sign. -/
def exponent? : List Char → Option Int
  | '-' :: cs => (digitsValue? true 0 cs).map fun n => -(n : Int)
  | '+' :: cs => (digitsValue? true 0 cs).map fun n => (n : Int)
  | cs => (digitsValue? true 0 cs).map fun n => (n : Int)

/-- A number with a power of ten as a ratio. -/
def shifted (n : Nat) (e : Int) : Nat × Nat :=
  if 0 ≤ e then (n * Nat.pow 10 e.toNat, 1) else (n, Nat.pow 10 (-e).toNat)

/-- What follows the digits before a point or an exponent, given their value. -/
def decimal? (whole : Nat) (cs : List Char) : Option (Nat × Nat) := do
  let (places, rest) := match cs with
    | '.' :: cs => spanDigits cs
    | cs => ([], cs)
  let (fraction, length) ← run? places
  let e ← match rest with
    | [] => some 0
    | c :: rest => if c == 'e' || c == 'E' then exponent? rest else none
  some (shifted (whole * Nat.pow 10 length + fraction) (e - length))

/-- A ratio without a sign. -/
def magnitude? (cs : List Char) : Option (Nat × Nat) := do
  let (digits, rest) := spanDigits cs
  let startsWell := match cs with
    | '.' :: c :: _ => (digit? c).isSome
    | c :: _ => (digit? c).isSome
    | [] => false
  if !startsWell then none
  let (whole, _) ← run? digits
  match rest with
  | '/' :: rest => (digitsValue? true 0 rest).map fun d => (whole, d)
  | rest => decimal? whole rest

/-- The numerator and the denominator of the rational number that a text denotes. -/
def ratio? (s : String) : Option (Int × Nat) :=
  match (trim s).toList with
  | '-' :: cs => (magnitude? cs).map fun (n, d) => (-(n : Int), d)
  | '+' :: cs => (magnitude? cs).map fun (n, d) => ((n : Int), d)
  | cs => (magnitude? cs).map fun (n, d) => ((n : Int), d)

end Text
end Horn
