import Horn.Decimal.Root
import Horn.Text.Quoted

/-!
# Sample values

The values of a sample: truth values, integers (also for bit vectors), rationals, and a
placeholder for a position about which nothing is known. A text and the absent value can be
written into a sample, but they have no place in the order and are refused by every operation
that compares (`Value.isSupported`).

Values are ordered by kind first, placeholder, truth value, number, and numbers by size
(`Value.key`). Equality of samples is equality of keys, so the integer `2` and the rational
`2/1` are the same value, while `true` and `1` are not.
-/

namespace Horn

/-- A value at an argument position of a sample. -/
inductive Value where
  /-- Nothing is known about the position. -/
  | unknown
  | bool (b : Bool)
  | int (n : Int)
  | frac (q : Rat)
  /-- A text, which no sort has as a value. -/
  | text (s : String)
  /-- No value at all. -/
  | absent
  deriving DecidableEq, Inhabited

namespace Value

/-- The place of a value in the order: its kind and, inside the kind, a number. -/
structure Key where
  rank : Nat
  number : Rat
  deriving DecidableEq, Inhabited

/-- The order on keys: by rank, then by number. -/
def Key.compare (a b : Key) : Ordering :=
  if a.rank < b.rank then .lt
  else if b.rank < a.rank then .gt
  else if a.number < b.number then .lt
  else if b.number < a.number then .gt
  else .eq

/-- The key of a value. Unsupported values come after all others. -/
def key : Value → Key
  | .unknown => ⟨0, 0⟩
  | .bool b => ⟨1, if b then 1 else 0⟩
  | .int n => ⟨2, n⟩
  | .frac q => ⟨2, q⟩
  | .text _ => ⟨3, 0⟩
  | .absent => ⟨3, 1⟩

/-- Whether a value may take part in comparisons. -/
def isSupported : Value → Bool
  | .text _ | .absent => false
  | _ => true

/-- The text of a value inside a sample: `_`, `True`, `7`, `1/2`. -/
def toText : Value → String
  | .unknown => "_"
  | .bool b => if b then "True" else "False"
  | .int n => toString n
  | .frac q => Decimal.ratText q
  | .text s => s
  | .absent => "None"

/-- The text of a value inside a message; a text is quoted. -/
def quoted : Value → String
  | .text s => Text.quoted s
  | v => v.toText

end Value

end Horn
