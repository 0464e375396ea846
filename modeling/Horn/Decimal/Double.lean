/-!
# Binary floating-point numbers of 64 bits

A finite number is `± mantissa * 2 ^ exponent` with a mantissa below `2 ^ 53`; unless the exponent
is the least one, the mantissa has exactly 53 bits. `Double.nearest` rounds a rational to the
nearest of these numbers, and a number halfway between two of them to the one with even mantissa.

All computations are on naturals and rationals.
-/

namespace Horn
namespace Decimal

/-- A floating-point number. -/
inductive Double where
  | finite (negative : Bool) (mantissa : Nat) (exponent : Int)
  | infinite (negative : Bool)
  | nan
  deriving DecidableEq, Inhabited

/-- A power of two with any exponent. -/
def twoPow (e : Int) : Rat :=
  if 0 ≤ e then (Nat.pow 2 e.toNat : Rat) else mkRat 1 (Nat.pow 2 (-e).toNat)

/-- A power of ten with any exponent. -/
def tenPow (e : Int) : Rat :=
  if 0 ≤ e then (Nat.pow 10 e.toNat : Rat) else mkRat 1 (Nat.pow 10 (-e).toNat)

/-- The natural number nearest to a rational that is not negative; a half goes to the even
neighbour. -/
def roundHalfEven (q : Rat) : Nat :=
  let low := q.num.toNat / q.den
  let twice := 2 * (q.num.toNat % q.den)
  if twice < q.den then low
  else if q.den < twice then low + 1
  else if low % 2 = 0 then low else low + 1

namespace Double

/-- The least exponent. -/
def leastExponent : Int := -1074

/-- The greatest exponent. -/
def greatestExponent : Int := 971

/-- The exponent at which a positive rational has 53 bits in front of the point. -/
def exponentOf (q : Rat) : Int :=
  let e : Int := (Nat.log2 q.num.toNat : Int) - Nat.log2 q.den - 52
  if q < twoPow (e + 52) then e - 1 else e

/-- The floating-point number with the magnitude nearest to a rational that is not negative. -/
def ofMagnitude (negative : Bool) (q : Rat) : Double :=
  if q = 0 then .finite negative 0 leastExponent
  else
    let e := max (exponentOf q) leastExponent
    let m := roundHalfEven (q / twoPow e)
    let (m, e) := if m = Nat.pow 2 53 then (Nat.pow 2 52, e + 1) else (m, e)
    if greatestExponent < e then .infinite negative else .finite negative m e

/-- The floating-point number nearest to a rational. -/
def nearest (q : Rat) : Double := ofMagnitude (decide (q < 0)) (if q < 0 then -q else q)

/-- The magnitude of a finite number. -/
def magnitude (m : Nat) (e : Int) : Rat := (m : Rat) * twoPow e

/-- The rational that a finite number is. -/
def toRat? : Double → Option Rat
  | .finite negative m e => some (if negative then -magnitude m e else magnitude m e)
  | _ => none

/-- The negative of a number. -/
def negate : Double → Double
  | .finite negative m e => .finite (!negative) m e
  | .infinite negative => .infinite (!negative)
  | .nan => .nan

/-- Whether a number is one of the two zeros. -/
def isZero : Double → Bool
  | .finite _ m _ => m == 0
  | _ => false

/-- A finite number without the digits behind the point. -/
def truncate? (x : Double) : Option Int :=
  x.toRat?.map fun q => if q < 0 then -((-q).floor) else q.floor

/-- The sum of numbers, if they are finite. -/
def add (x y : Double) : Double :=
  match x.toRat?, y.toRat? with
  | some p, some q => nearest (p + q)
  | _, _ => if x.toRat?.isSome then y else x

/-- A finite number times a natural one. -/
def scale (n : Nat) (x : Double) : Double :=
  match x.toRat? with
  | some q => nearest (n * q)
  | none => x

/-- The number that `± digits * 10 ^ exponent` denotes. Exponents far outside the range are not
computed with. -/
def ofDigits (negative : Bool) (digits : List Nat) (exponent : Int) : Double :=
  let digits := digits.dropWhile (· == 0)
  let size := (digits.length : Int) + exponent
  if digits.isEmpty ∨ size < -400 then .finite negative 0 leastExponent
  else if 400 < size then .infinite negative
  else ofMagnitude negative ((digits.foldl (fun n d => 10 * n + d) 0 : Nat) * tenPow exponent)

end Double

end Decimal
end Horn
