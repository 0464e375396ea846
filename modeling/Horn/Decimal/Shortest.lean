import Horn.Decimal.Double

/-!
# Shortest decimals

The decimal text of a floating-point number has the fewest digits that still read back as this
number, and among those the digits nearest to it.

The rationals that round to a number form an interval, whose ends belong to it when the mantissa is
even. For each count of digits, `Shortest.digits` looks at the two neighbours of the number on the
grid of decimals with so many digits.
-/

namespace Horn
namespace Decimal
namespace Shortest

/-- The rationals between two ends. -/
structure Interval where
  low : Rat
  high : Rat
  closed : Bool

/-- Whether a rational lies in an interval. -/
def Interval.has (i : Interval) (q : Rat) : Bool :=
  if i.closed then decide (i.low ≤ q ∧ q ≤ i.high) else decide (i.low < q ∧ q < i.high)

/-- The rationals that round to the number `m * 2 ^ e`. Just above a power of two the gap to the
number below is half as wide. -/
def interval (m : Nat) (e : Int) : Interval :=
  let v := Double.magnitude m e
  let ulp := twoPow e
  let below := if m = Nat.pow 2 52 ∧ Double.leastExponent < e then ulp / 4 else ulp / 2
  ⟨v - below, v + ulp / 2, m % 2 == 0⟩

/-- The least `k` from `start` on with `1 ≤ q * 10 ^ k`, at most `fuel` steps further. -/
def leadingZeros (q : Rat) : Nat → Nat → Nat
  | 0, start => start
  | fuel + 1, start => if 1 ≤ q * tenPow start then start else leadingZeros q fuel (start + 1)

/-- The position of the point of a positive number: `10 ^ (point - 1) ≤ q < 10 ^ point`. -/
def point (q : Rat) : Int :=
  if 1 ≤ q then ((Nat.toDigits 10 q.floor.toNat).length : Int) else 1 - (leadingZeros q 400 1 : Int)

/-- The grid points with a given step that are nearest to `q` and lie in an interval, as a multiple
of the step. -/
def pick? (i : Interval) (q step : Rat) : Option Nat :=
  let low := (q / step).floor.toNat
  let at' (n : Nat) : Rat := (n : Rat) * step
  match i.has (at' low), i.has (at' (low + 1)) with
  | true, true => some (if q - at' low ≤ at' (low + 1) - q then low else low + 1)
  | true, false => some low
  | false, true => some (low + 1)
  | false, false => none

/-- Searches with one digit, two digits and so on, at most `fuel` times. The digits form a number
that is to be multiplied by a power of ten. -/
def search (i : Interval) (q : Rat) : Nat → Int → Nat × Int
  | 0, exponent => (roundHalfEven (q / tenPow exponent), exponent)
  | fuel + 1, exponent =>
    match pick? i q (tenPow exponent) with
    | some n => (n, exponent)
    | none => search i q fuel (exponent - 1)

/-- The digits of the positive number `m * 2 ^ e`, without zeros at the end, and the position of
the point before or behind them. -/
def digits (m : Nat) (e : Int) : List Char × Int :=
  let q := Double.magnitude m e
  let (n, exponent) := search (interval m e) q 17 (point q - 1)
  let cs := Nat.toDigits 10 n
  ((cs.reverse.dropWhile (· == '0')).reverse, (cs.length : Int) + exponent)

/-- A number of zeros. -/
def zeros (n : Int) : List Char := List.replicate n.toNat '0'

/-- How an exponent is written: with a sign and with at least two digits. -/
def exponentText (e : Int) : String :=
  (if e < 0 then "e-" else "e+") ++ (if e.natAbs < 10 then "0" else "") ++ toString e.natAbs

/-- Digits and a point as a text: positional from `0.0001` up to `10 ^ 16`, and with an exponent
elsewhere. -/
def layout (ds : List Char) (point : Int) : String :=
  if point ≤ -4 ∨ 16 < point then
    String.ofList (ds.take 1) ++ (if ds.length ≤ 1 then "" else "." ++ String.ofList (ds.drop 1))
      ++ exponentText (point - 1)
  else if point ≤ 0 then "0." ++ String.ofList (zeros (-point) ++ ds)
  else if (ds.length : Int) ≤ point then
    String.ofList (ds ++ zeros (point - ds.length)) ++ ".0"
  else String.ofList (ds.take point.toNat) ++ "." ++ String.ofList (ds.drop point.toNat)

end Shortest

/-- The text of a number. Zero has a sign too. -/
def Double.text : Double → String
  | .finite negative m e =>
    let (ds, point) := if m = 0 then (['0'], 1) else Shortest.digits m e
    (if negative then "-" else "") ++ Shortest.layout ds point
  | .infinite negative => if negative then "-inf" else "inf"
  | .nan => "nan"

end Decimal
end Horn
