import Horn.Text.Blank

/-!
# Reading integers

A liberal reader of decimal integers: blanks around the number are skipped, a sign may stand in
front, digits may be of any script, and single underscores may stand between digits.

In arguments and documents, numbers with more than `maxDigits` digits are refused, and integers with
more digits are not written.
-/

namespace Horn
namespace Text

/-- The value of digits with single underscores between them; `pending` says that a digit has to
follow. -/
def digitsValue? (pending : Bool) (acc : Nat) : List Char → Option Nat
  | [] => if pending then none else some acc
  | c :: cs =>
    if c == '_' then (if pending then none else digitsValue? true acc cs)
    else (digit? c).bind fun d => digitsValue? false (acc * 10 + d) cs

/-- The integer that a text denotes. -/
def integer? (s : String) : Option Int :=
  match (trim s).toList with
  | '-' :: cs => (digitsValue? true 0 cs).map fun n => -(n : Int)
  | '+' :: cs => (digitsValue? true 0 cs).map fun n => (n : Int)
  | cs => (digitsValue? true 0 cs).map fun n => (n : Int)

/-! ### Long numbers -/

/-- How many digits an integer may have that comes from outside or is shown there. -/
def maxDigits : Nat := 4300

/-- The integer that a text denotes, if it does not have too many digits. Zeros in front count. -/
def shortInteger? (s : String) : Option Int :=
  if s.toList.countP (fun c => (digit? c).isSome) ≤ maxDigits then integer? s else none

/-- Whether an integer does not have too many digits. -/
def isShort (n : Int) : Bool := decide ((toString n.natAbs).length ≤ maxDigits)

end Text
end Horn
