/-!
# Integer square roots and rational numerals

`integerSqrt n` is the greatest `r` with `r * r ≤ n`, found one binary digit at a time.
`ratText` and `rootText` are the decimal forms of a rational and of an irrational square root.
-/

namespace Horn
namespace Decimal

/-- Adds to `r` the greatest multiple below `2 ^ fuel` that keeps the square at most `n`. -/
def sqrtFrom (n : Nat) : Nat → Nat → Nat
  | 0, r => r
  | fuel + 1, r =>
    let r' := r + Nat.pow 2 fuel
    sqrtFrom n fuel (if r' * r' ≤ n then r' else r)

/-- The greatest `r` with `r * r ≤ n`. -/
def integerSqrt (n : Nat) : Nat := sqrtFrom n (Nat.log2 n / 2 + 1) 0

/-- The text of a rational in lowest terms: `3`, `-7/3`. -/
def ratText (q : Rat) : String :=
  if q.den = 1 then toString q.num else toString q.num ++ "/" ++ toString q.den

/-- The first ten decimals of the square root of `q`, followed by a question mark. -/
def rootText (negative : Bool) (q : Rat) : String :=
  let scaled := integerSqrt (q.num.toNat * Nat.pow 10 20 / q.den)
  let whole := toString (scaled / Nat.pow 10 10)
  let decimals := toString (scaled % Nat.pow 10 10)
  let padding := String.ofList (List.replicate (10 - decimals.length) '0')
  (if negative then "-" else "") ++ whole ++ "." ++ padding ++ decimals ++ "?"

end Decimal
end Horn
