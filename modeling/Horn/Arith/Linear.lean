/-!
# Linear expressions and constraints

A linear expression is a rational constant and a list of weighted variables, ascending in the
variables and without zero weights. Variables are numbered; `Kinds` says which of them range over
the integers.

A constraint compares a linear expression with zero. `Constraint.normalize?` brings it into a
form in which it can be compared with others: constants are decided, and a constraint over
integers gets coprime integral weights and a constant that is rounded inwards, which makes it as
strong as it can be.
-/

namespace Horn
namespace Arith

/-- Which variables range over the integers. -/
abbrev Kinds := Nat → Bool

/-- A linear expression. -/
structure Linear where
  constant : Rat
  weights : List (Nat × Rat)
  deriving DecidableEq, Inhabited

namespace Linear

/-- The constant expression. -/
def ofRat (q : Rat) : Linear := ⟨q, []⟩

/-- The expression that is a variable. -/
def ofVar (x : Nat) : Linear := ⟨0, [(x, 1)]⟩

/-- The sum of two ascending lists of weights. -/
def addWeights : List (Nat × Rat) → List (Nat × Rat) → List (Nat × Rat)
  | [], ys => ys
  | xs, [] => xs
  | (x, a) :: xs, (y, b) :: ys =>
    if x < y then (x, a) :: addWeights xs ((y, b) :: ys)
    else if y < x then (y, b) :: addWeights ((x, a) :: xs) ys
    else if a + b = 0 then addWeights xs ys
    else (x, a + b) :: addWeights xs ys
  termination_by xs ys => xs.length + ys.length

/-- The sum of two expressions. -/
def add (e f : Linear) : Linear := ⟨e.constant + f.constant, addWeights e.weights f.weights⟩

/-- A multiple of an expression. -/
def scale (c : Rat) (e : Linear) : Linear :=
  if c = 0 then ofRat 0 else ⟨c * e.constant, e.weights.map fun (x, a) => (x, c * a)⟩

/-- The difference of two expressions. -/
def sub (e f : Linear) : Linear := e.add (f.scale (-1))

/-- The expression with a number added. -/
def plus (e : Linear) (q : Rat) : Linear := { e with constant := e.constant + q }

/-- The weight of a variable. -/
def weight (e : Linear) (x : Nat) : Rat := ((e.weights.find? (·.1 == x)).map (·.2)).getD 0

/-- The expression without a variable. -/
def without (e : Linear) (x : Nat) : Linear := { e with weights := e.weights.filter (·.1 != x) }

/-- The expression with another one in place of a variable. -/
def subst (e : Linear) (x : Nat) (f : Linear) : Linear :=
  let a := e.weight x
  if a = 0 then e else (e.without x).add (f.scale a)

/-- The value of an expression. -/
def eval (values : Nat → Rat) (e : Linear) : Rat :=
  e.weights.foldl (fun acc (x, a) => acc + a * values x) e.constant

end Linear

/-- How an expression compares with zero. -/
inductive Relation where
  | eq | le | lt
  deriving DecidableEq, Inhabited

/-- A comparison of a linear expression with zero. -/
structure Constraint where
  relation : Relation
  expr : Linear
  deriving DecidableEq, Inhabited

/-- Whether a number compares with zero in a way. -/
def Relation.holds (r : Relation) (q : Rat) : Bool :=
  match r with
  | .eq => decide (q = 0)
  | .le => decide (q ≤ 0)
  | .lt => decide (q < 0)

/-- The least integer that is not below a number. -/
def ceiling (q : Rat) : Int := -(-q).floor

namespace Constraint

/-- The least common denominator of the weights. -/
def denominator (e : Linear) : Nat := e.weights.foldl (fun d (_, a) => Nat.lcm d a.den) 1

/-- The greatest common divisor of integral weights. -/
def content (e : Linear) : Nat := e.weights.foldl (fun g (_, a) => Nat.gcd g a.num.natAbs) 0

/-- Whether all variables range over the integers. -/
def isIntegral (kinds : Kinds) (e : Linear) : Bool := e.weights.all fun (x, _) => kinds x

/-- A constraint over integers with coprime integral weights; `none` if it has no solution. -/
def tighten (c : Constraint) : Option Constraint :=
  let e := c.expr.scale (denominator c.expr : Rat)
  let g : Rat := content e
  let e := e.scale (1 / g)
  match c.relation with
  | .eq => if e.constant.den = 1 then some ⟨.eq, e⟩ else none
  | .le => some ⟨.le, { e with constant := ceiling e.constant }⟩
  | .lt => some ⟨.le, { e with constant := e.constant.floor + 1 }⟩

/-- The normal form of a constraint: `some none` if it always holds, `none` if it never does. -/
def normalize? (kinds : Kinds) (c : Constraint) : Option (Option Constraint) :=
  if c.expr.weights.isEmpty then
    if c.relation.holds c.expr.constant then some none else none
  else if isIntegral kinds c.expr then c.tighten.map some
  else some (some c)

/-- The constraint with an expression in place of a variable. -/
def subst (c : Constraint) (x : Nat) (f : Linear) : Constraint :=
  { c with expr := c.expr.subst x f }

end Constraint

/-- The normal forms of all constraints, without repetition; `none` if one of them never holds. -/
def normalizeAll (kinds : Kinds) : List Constraint → Option (List Constraint)
  | [] => some []
  | c :: cs =>
    match c.normalize? kinds with
    | none => none
    | some none => normalizeAll kinds cs
    | some (some c) => (normalizeAll kinds cs).map fun cs => if cs.contains c then cs else c :: cs

end Arith
end Horn
