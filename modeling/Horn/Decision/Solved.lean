import Horn.Decision.Valuation
import Horn.Decimal.Root
import Horn.Term.Substitute

/-!
# Solved forms

A conjunction often says outright what a constant is: `x = t` with `x` not in `t`, or a Boolean
constant by itself. `solveFor` puts such definitions into all other members, one after the other.

This is also where equations that are not linear become so: a definition may turn an exponent or
a factor into a number. Two equations are solved directly: a square that equals a number, and a
power of a number that equals a number (`special?`).
-/

namespace Horn
namespace Decision

open Term

/-- The constants of a term, each once. -/
def constantsOf (t : Term) : List Constant :=
  ((t.symbols.filter (·.domain.isEmpty)).map fun f => (⟨f.name, f.range⟩ : Constant)).eraseDups

/-- The members of simplified conjunctions. -/
def conjuncts (ts : List Term) : List Term := ts.flatMap fun t => (simplify t).members .and

/-- The constant that a term is. -/
def asConstant? : Term → Option Constant
  | .fn f as => constant? f as
  | _ => none

/-- What a member of a conjunction says a constant to be. -/
def definition? (t : Term) : Option (Constant × Term) :=
  match t with
  | .fn f as => (constant? f as).map fun c => (c, verum)
  | .op .not [.fn f as] => (constant? f as).map fun c => (c, falsum)
  | .op .eq [s, t] =>
    let attempt (s t : Term) : Option (Constant × Term) :=
      (asConstant? s).bind fun c =>
        if c.sort == t.sort && !(constantsOf t).contains c then some (c, t) else none
    (attempt s t).orElse fun _ => attempt t s
  | _ => none

/-- The first definition in a conjunction, and the other members. -/
def firstDefinition : List Term → Option ((Constant × Term) × List Term)
  | [] => none
  | t :: ts =>
    match definition? t with
    | some d => some (d, ts)
    | none => (firstDefinition ts).map fun (d, rest) => (d, t :: rest)

/-- Puts definitions into the other members, at most `fuel` of them. The definitions are listed
with the last one first. -/
def solveFor : Nat → List Term → List (Constant × Term) → List Term × List (Constant × Term)
  | 0, ts, found => (ts, found)
  | fuel + 1, ts, found =>
    match firstDefinition ts with
    | none => (ts, found)
    | some (d, rest) => solveFor fuel (conjuncts (rest.map (substitute [d]))) (d :: found)

/-- The square root of a rational, if it is rational. -/
def rationalRoot? (q : Rat) : Option Rat :=
  let n := Decimal.integerSqrt q.num.natAbs
  let d := Decimal.integerSqrt q.den
  if 0 ≤ q ∧ n * n = q.num.natAbs ∧ d * d = q.den then some (mkRat n d) else none

/-- The exponent with which a number is a power of another one. -/
def exponent? (base : Int) (n : Int) : Nat → Option Nat
  | 0 => none
  | fuel + 1 =>
    if n = 1 then some 0
    else if n % base = 0 then (exponent? base (n / base) fuel).map (· + 1)
    else none

/-- The cases of `x * x = q`: a value for each root; an integer has rational roots only. -/
def squareCases (x : Term) (q : Rat) : List Term :=
  match rationalRoot? q with
  | some r => [.op .eq [x, numeral x.sort r], .op .eq [x, numeral x.sort (-r)]]
  | none =>
    if q < 0 || x.sort == .int then []
    else [.op .eq [x, .lit (.root false q)], .op .eq [x, .lit (.root true q)]]

/-- The cases of a member that is solved directly. -/
def special? (t : Term) : Option (List Term) :=
  match t with
  | .op .eq [s, t] =>
    let attempt (s t : Term) : Option (List Term) :=
      t.numeral?.bind fun q =>
        match s with
        | .op .mul [x, y] =>
          if x = y && (asConstant? x).isSome then some (squareCases x q) else none
        | .op .mul [a, x, y] =>
          a.numeral?.bind fun a =>
            if x = y && a != 0 && (asConstant? x).isSome then some (squareCases x (q / a)) else none
        | .op .pow [.lit (.int b), y] =>
          if b = 1 then some (if q = 1 then [verum] else [])
          else if 2 ≤ b && q.den == 1 then
            match exponent? b q.num (Nat.log2 q.num.natAbs + 2) with
            | some n => some (if 0 < q then [.op .eq [y, int n]] else [])
            | none => some []
          else none
        | _ => none
    (attempt s t).orElse fun _ => attempt t s
  | _ => none

/-- The first member that is solved directly, as cases, and the other members. -/
def firstSpecial : List Term → Option (List Term × List Term)
  | [] => none
  | t :: ts =>
    match special? t with
    | some cases => some (cases, ts)
    | none => (firstSpecial ts).map fun (cases, rest) => (cases, t :: rest)

/-- The valuation with values for defined constants, the last definition first. -/
def extend (v : Valuation) (found : List (Constant × Term)) : Valuation :=
  found.foldl (fun v (c, t) => { v with constants := (c, v.eval t) :: v.constants }) v

end Decision
end Horn
