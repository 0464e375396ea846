import Horn.Arith.Linear

/-!
# Solving linear constraints

`solve` decides whether constraints over integers and reals hold together, and finds values.

Equations come first. One with a real variable, or with an integer of weight one, is solved for
that variable. Other equations over integers are made smaller in the manner of Euclid: the
variable with the least weight is replaced by itself minus a combination of the others, so that
all other weights become remainders.

Of the inequalities, those over reals are eliminated first, by adding lower and upper bounds. For
integers the sum of the bounds is exact where one of the weights is one. Otherwise a stronger sum
(the *dark shadow*) is tried; if it fails, a solution lies close above some lower bound, and each
of the finitely many cases becomes an equation.

Values are found on the way back: each variable that was eliminated gets a value between its
bounds.
-/

namespace Horn
namespace Arith

/-- The values of some variables; all others are zero. -/
abbrev Values := List (Nat × Rat)

/-- The value of a variable. -/
def Values.get (v : Values) (x : Nat) : Rat := ((v.find? (·.1 == x)).map (·.2)).getD 0

/-- The answer of the solver. -/
inductive Answer (α : Type) where
  | unsat
  | sat (solution : α)
  | unknown

/-- An equation with the variable it is to be solved for: a real one, or an integer with the
least weight. -/
def pivot? (kinds : Kinds) (e : Linear) : Option (Nat × Rat) :=
  match e.weights.find? fun (x, _) => !kinds x with
  | some p => some p
  | none => e.weights.foldl
      (fun best (x, a) => match best with
        | none => some (x, a)
        | some (y, b) => if a.abs < b.abs then some (x, a) else some (y, b)) none

/-- The integer nearest to a number. -/
def nearest (q : Rat) : Int := (q + 1 / 2).floor

/-- What to put in place of a variable of an equation with integral weights, so that all other
weights become remainders modulo `a`. -/
def reduction (e : Linear) (x : Nat) (a : Rat) : Linear :=
  let quotients : Linear :=
    ⟨-(nearest (e.constant / a) : Rat),
      (e.without x).weights.filterMap fun (y, b) =>
        let q := nearest (b / a)
        if q = 0 then none else some (y, -(q : Rat))⟩
  quotients.add (Linear.ofVar x)

/-- The equations of a list, and the rest. -/
def splitEquations (cs : List Constraint) : List Constraint × List Constraint :=
  cs.partition fun c => c.relation == .eq

/-- The equation that is best solved next: one that solves for a variable directly, if any. -/
def chooseEquation (kinds : Kinds) (eqs : List Constraint) : Option (Linear × Nat × Rat) :=
  let pivots := eqs.filterMap fun c => (pivot? kinds c.expr).map fun (x, a) => (c.expr, x, a)
  match pivots.find? fun (_, x, a) => !kinds x || a == 1 || a == -1 with
  | some p => some p
  | none => pivots.head?

/-- All variables of a list of constraints. -/
def unknowns (cs : List Constraint) : List Nat :=
  (cs.flatMap fun c => c.expr.weights.map (·.1)).eraseDups

/-- The lower bounds and the upper bounds of a variable, and the constraints without it. -/
def boundsOf (x : Nat) (cs : List Constraint) :
    List Constraint × List Constraint × List Constraint :=
  (cs.filter (·.expr.weight x < 0), cs.filter (0 < ·.expr.weight x),
    cs.filter (·.expr.weight x == 0))

/-- The sum of a lower and an upper bound in which the variable is cancelled, made stronger by
`gap`. -/
def shadow (x : Nat) (gap : Rat → Rat → Rat) (lower upper : Constraint) : Constraint :=
  let b := -lower.expr.weight x
  let a := upper.expr.weight x
  let e := ((upper.expr.without x).scale b).add ((lower.expr.without x).scale a)
  ⟨if lower.relation == .lt || upper.relation == .lt then .lt else .le, e.plus (gap a b)⟩

/-- All sums of lower and upper bounds. -/
def shadows (x : Nat) (gap : Rat → Rat → Rat) (lowers uppers : List Constraint) :
    List Constraint :=
  lowers.flatMap fun l => uppers.map fun u => shadow x gap l u

/-- Whether the elimination of a variable over the integers loses nothing. -/
def isExact (x : Nat) (lowers uppers : List Constraint) : Bool :=
  lowers.all (·.expr.weight x == -1) || uppers.all (·.expr.weight x == 1)

/-- The cost of eliminating a variable: reals and exact eliminations first, then few sums. -/
def cost (kinds : Kinds) (cs : List Constraint) (x : Nat) : Nat :=
  let (lowers, uppers, _) := boundsOf x cs
  let sums := lowers.length * uppers.length
  if !kinds x then sums
  else if isExact x lowers uppers then 10000 + sums else 20000 + sums

/-- The variable to eliminate next. -/
def chooseVariable (kinds : Kinds) (cs : List Constraint) : Option Nat :=
  ((unknowns cs).map fun x => (cost kinds cs x, x)).foldl
    (fun best (k, x) => match best with
      | none => some (k, x)
      | some (m, y) => if k < m then some (k, x) else some (m, y)) none
  |>.map (·.2)

/-- The bound that a constraint puts on a variable, given values for all others, and whether it
is strict. -/
def boundValue (x : Nat) (v : Values) (c : Constraint) : Rat × Bool :=
  (-((c.expr.without x).eval v.get) / c.expr.weight x, c.relation == .lt)

/-- The tighter of two bounds; `below` says whether they are upper bounds. -/
def tighter (below : Bool) (a b : Rat × Bool) : Rat × Bool :=
  if a.1 = b.1 then (a.1, a.2 || b.2)
  else if below == decide (a.1 < b.1) then a else b

/-- The tightest of some bounds. -/
def tightest (below : Bool) (bounds : List (Rat × Bool)) : Option (Rat × Bool) :=
  bounds.foldl (fun best b => match best with
    | none => some b
    | some a => some (tighter below a b)) none

/-- A value between bounds: zero if that is possible, or else close to a bound. -/
def between (isInt : Bool) (lower upper : Option (Rat × Bool)) : Rat :=
  let above (q : Rat) : Bool := match lower with
    | none => true
    | some (l, strict) => if strict then decide (l < q) else decide (l ≤ q)
  let under (q : Rat) : Bool := match upper with
    | none => true
    | some (u, strict) => if strict then decide (q < u) else decide (q ≤ u)
  if above 0 && under 0 then 0
  else match lower, upper with
    | some (l, _), _ =>
      let c : Rat := if above (ceiling l : Rat) then (ceiling l : Rat) else (ceiling l : Rat) + 1
      if isInt || under c then c
      else match upper with
        | some (u, _) => if above u && under u then u else (l + u) / 2
        | none => c
    | none, some (u, _) =>
      if under (u.floor : Rat) then (u.floor : Rat) else (u.floor : Rat) - 1
    | none, none => 0

/-- Gives a value to an eliminated variable. -/
def assign (kinds : Kinds) (x : Nat) (lowers uppers : List Constraint) (v : Values) : Values :=
  (x, between (kinds x) (tightest false (lowers.map (boundValue x v)))
    (tightest true (uppers.map (boundValue x v)))) :: v

/-- The equations that put a variable close above one of its lower bounds. -/
def splinters (x : Nat) (lowers uppers : List Constraint) : List Constraint :=
  let a := uppers.foldl (fun m u => if m < u.expr.weight x then u.expr.weight x else m) 1
  lowers.flatMap fun l =>
    let b := -l.expr.weight x
    let last := ((a * b - a - b) / a).floor
    (List.range (last + 1).toNat).map fun (i : Nat) => ⟨.eq, l.expr.plus (i : Rat)⟩

/-- The first satisfiable case; `unknown` if no case is, but some case is not decided. -/
def firstSat {α β : Type} (f : β → Answer α) : List β → Answer α
  | [] => .unsat
  | b :: bs =>
    match f b with
    | .sat s => .sat s
    | .unsat => firstSat f bs
    | .unknown =>
      match firstSat f bs with
      | .sat s => .sat s
      | _ => .unknown

/-- Turns the values of a reduced problem into values of the problem. -/
def Answer.map {α β : Type} (f : α → β) : Answer α → Answer β
  | .unsat => .unsat
  | .sat s => .sat (f s)
  | .unknown => .unknown

/-- Decides a list of constraints in at most `fuel` eliminations on each path. -/
def solveWithin (kinds : Kinds) : Nat → List Constraint → Answer Values
  | 0, _ => .unknown
  | fuel + 1, cs =>
    match normalizeAll kinds cs with
    | none => .unsat
    | some cs =>
      let (eqs, rest) := splitEquations cs
      match chooseEquation kinds eqs with
      | some (e, x, a) =>
        if !kinds x || a == 1 || a == -1 then
          let solution := (e.without x).scale (-1 / a)
          let others := (eqs.filter (·.expr != e)) ++ rest
          (solveWithin kinds fuel (others.map (·.subst x solution))).map fun v =>
            (x, solution.eval (Values.get v)) :: v
        else
          let replacement := reduction e x a
          (solveWithin kinds fuel (cs.map (·.subst x replacement))).map fun v =>
            (x, replacement.eval (Values.get v)) :: v
      | none =>
        match chooseVariable kinds rest with
        | none => .sat []
        | some x =>
          let (lowers, uppers, others) := boundsOf x rest
          let exact := !kinds x || isExact x lowers uppers
          let real := solveWithin kinds fuel
            (shadows x (fun _ _ => 0) lowers uppers ++ others)
          if exact || lowers.isEmpty || uppers.isEmpty then
            real.map (assign kinds x lowers uppers)
          else match real with
            | .unsat => .unsat
            | _ =>
              match solveWithin kinds fuel
                  (shadows x (fun a b => (a - 1) * (b - 1)) lowers uppers ++ others) with
              | .sat v => .sat (assign kinds x lowers uppers v)
              | _ => firstSat (fun c => solveWithin kinds fuel (c :: rest))
                  (splinters x lowers uppers)

/-- A number of eliminations that suffices: every elimination removes a variable, except those
that make the weights of an equation smaller. -/
def eliminations (cs : List Constraint) : Nat :=
  let digits := cs.foldl (fun n c => c.expr.weights.foldl
    (fun n (_, a) => n + Nat.log2 a.num.natAbs + Nat.log2 a.den + 1) n) 0
  8 * ((unknowns cs).length + 1) + 4 * digits + 8

/-- Decides whether constraints hold together, and finds values. -/
def solve (kinds : Kinds) (cs : List Constraint) : Answer Values :=
  solveWithin kinds (eliminations cs) cs

end Arith
end Horn
