import Horn.Decision.Solved
import Horn.Fixpoint.Frame

/-!
# Templates

The formulas that frames are built from. For each relation there are

* bounds on its numbers, and on the sums and differences of two of them, by the constants that occur
  in the steps and their neighbours;
* residues of its integers modulo two and for small moduli that occur in the steps;
* truth values, and equalities between arguments of one sort;
* for bit vectors, bounds by the constants that occur;
* what the guards of the steps say about their conclusions, and implications between such formulas;
* conditions that keep the error from being derived, traced back through the steps
  (`Template.traced`).

Bounds that imply each other form chains.
-/

namespace Horn
namespace Template

open Term

/-! ### Constants -/

mutual

/-- The literals in a term. -/
def literals : Term → List Literal
  | .lit a => [a]
  | .bound _ _ => []
  | .fn _ args => literalsList args
  | .op _ args => literalsList args
  | .quant _ _ b => literals b

/-- The literals in a list of terms. -/
def literalsList : List Term → List Literal
  | [] => []
  | t :: ts => literals t ++ literalsList ts

end

/-- The terms of a step. -/
def termsOf (s : Step) : List Term :=
  s.guard ++ s.premises.flatMap (·.2) ++ s.conclusion.2

/-- The literals in some steps, each of them once. -/
def literalsOf (steps : List Step) : List Literal :=
  (steps.flatMap fun s => literalsList (termsOf s)).eraseDups

/-- The number that a literal is. -/
def number? : Literal → Option Rat
  | .int n => some n
  | .real q => some q
  | _ => none

/-- The numbers by which something is bounded, in ascending order. -/
def thresholds (ls : List Literal) : List Rat :=
  let numbers := ls.filterMap number?
  ((0 :: numbers.flatMap fun q => [q - 1, q, q + 1]).eraseDups).mergeSort fun a b => decide (a ≤ b)

/-- The moduli for residues. -/
def moduli (ls : List Literal) : List Nat :=
  (2 :: ls.filterMap fun l => match l with
    | .int n => if 2 ≤ n.natAbs ∧ n.natAbs ≤ 6 then some n.natAbs else none
    | _ => none).eraseDups

/-! ### Formulas -/

/-- The numeral of a number in an arithmetic sort. -/
def numeralIn (s : TermSort) (q : Rat) : Term := if s == .real then real q else int q.num

/-- The thresholds that are numbers of a sort. -/
def inSort (s : TermSort) (qs : List Rat) : List Rat :=
  if s == .real then qs else qs.filter (·.den == 1)

/-- The chains of lower and of upper bounds on a form. -/
def bounds (qs : List Rat) (s : TermSort) (form : Term) : List Chain :=
  let ns := (inSort s qs).map (numeralIn s)
  [ns.reverse.map fun n => .op .ge [form, n], ns.map fun n => .op .le [form, n]]

/-- The pairs of arguments of one sort, each pair once. -/
def pairsOf : List Constant → List (Constant × Constant)
  | [] => []
  | x :: xs => (xs.filter (·.sort == x.sort)).map (x, ·) ++ pairsOf xs

/-- The chains for one argument. -/
def single (ls : List Literal) (x : Constant) : List Chain :=
  match x.sort with
  | .bool => [[const x], [(const x).neg]]
  | .int =>
    bounds (thresholds ls) .int (const x) ++ (moduli ls).flatMap fun (m : Nat) =>
      (List.range m).map fun (r : Nat) => [eq (.op .mod [const x, int m]) (int r)]
  | .real => bounds (thresholds ls) .real (const x)
  | .bitVec w =>
    ls.flatMap fun l => match l with
      | .bitVec v n =>
        if v = w then
          [[.op .bvUle [const x, .lit (.bitVec v n)]], [.op .bvUge [const x, .lit (.bitVec v n)]]]
        else []
      | _ => []
  | _ => []

/-- The chains for two arguments of one sort. -/
def double (ls : List Literal) (x y : Constant) : List Chain :=
  if x.sort.isArith then
    bounds (thresholds ls) x.sort (.op .sub [const x, const y])
      ++ bounds (thresholds ls) x.sort (.op .add [const x, const y])
  else [[eq (const x) (const y)], [(eq (const x) (const y)).neg]]

/-- The chains for a relation. -/
def chains (ls : List Literal) (r : Symbol) : List Chain :=
  let xs := Frame.params r
  let pairs := pairsOf xs
  xs.flatMap (single ls) ++ (pairs.take 6).flatMap fun (x, y) => double ls x y

/-! ### Conditions from the error back -/

/-- The constant that a term is. -/
def constant? : Term → Option Constant
  | .fn f [] => some ⟨f.name, f.range⟩
  | _ => none

/-- The constants in a term. -/
def constants (t : Term) : List Constant :=
  (t.symbols.filter (·.domain.isEmpty)).map fun f => ⟨f.name, f.range⟩

/-- The value that an equation gives to a constant that is not among some others. -/
def solution? (fixed : List Constant) : Term → Option (Constant × Term)
  | .op .eq [a, b] =>
    let side (a b : Term) : Option (Constant × Term) :=
      (constant? a).bind fun x =>
        if fixed.contains x || (constants b).contains x then none else some (x, b)
    side a b <|> side b a
  | _ => none

/-- Puts in what equations say about constants that are not among some others, at most `fuel`
times. -/
def putIn (fixed : List Constant) : Nat → List Term → Term → List Term × Term
  | 0, guard, goal => (guard, goal)
  | fuel + 1, guard, goal =>
    match guard.findSome? (solution? fixed) with
    | none => (guard, goal)
    | some (x, t) =>
      putIn fixed fuel ((guard.map (substitute [(x, t)])).filter fun u => u != eq t t)
        (substitute [(x, t)] goal)

/-- What the guard of a step says about the parameters of the conclusion. -/
def said (s : Step) : List Term :=
  let s := s.withSuffix "."
  let xs := Frame.params s.conclusion.1
  let equations := (xs.zip s.conclusion.2).map fun (x, t) => eq (const x) t
  let guard := Decision.conjuncts (equations ++ s.guard)
  let (guard, _) := putIn xs guard.length guard verum
  guard.filter fun t => (constants t).all xs.contains

/-- The implications between different formulas of a list. -/
def implications (ts : List Term) : List Term :=
  ts.flatMap fun t => (ts.filter (· != t)).map fun u => .op .or [t.neg, u]

/-- The formulas that are read off the steps that conclude a relation. -/
def readOff (simplify : Term → Term) (steps : List Step) (r : Symbol) : List Term :=
  let ts := (steps.filter (·.conclusion.1 == r)).flatMap fun s =>
    let ts := said s
    ts ++ implications ts
  ((ts.map simplify).filter fun t => !t.isVerum && !t.isFalsum).eraseDups.take 40

/-- The condition on a premise of a step under which its guard implies a formula; `none`
if the condition is not one on the premise's arguments alone. -/
def condition? (s : Step) (goal : Term) (premise : Symbol × List Term) :
    Option (Symbol × Term) := do
  let (r, args) := premise
  let xs ← args.mapM constant?
  if xs.eraseDups.length ≠ xs.length then none
  let (guard, goal) := putIn xs s.guard.length s.guard goal
  let t : Term := .op .or (guard.map neg ++ [goal])
  if (constants t).all xs.contains then
    some (r, substitute (xs.zip ((Frame.params r).map const)) t)
  else none

/-- The conditions that keep a step from deriving what is not wanted. -/
def conditionsOf (unwanted : List (Symbol × Term)) (s : Step) : List (Symbol × Term) :=
  let (r, args) := s.conclusion
  let goals := (unwanted.filter (·.1 == r)).map fun (_, t) => Frame.at' r args t
  goals.flatMap fun goal => s.premises.filterMap (condition? s goal)

/-- The conditions on relations under which a number of steps do not lead to the error. -/
def traced (simplify : Term → Term) (error : Symbol) (steps : List Step) :
    Nat → List (Symbol × Term)
  | 0 => [(error, .falsum)]
  | n + 1 =>
    let before := traced simplify error steps n
    let new := (steps.flatMap (conditionsOf before)).map fun (r, t) => (r, simplify t)
    (before ++ new.filter fun e => !e.2.isVerum && !e.2.isFalsum).eraseDups.take 60

/-- All chains for a relation. -/
def all (simplify : Term → Term) (error : Symbol) (steps : List Step) (r : Symbol) : List Chain :=
  let back := (traced simplify error steps 3).filter (·.1 == r)
  chains (literalsOf steps) r ++ (readOff simplify steps r ++ back.map (·.2)).map fun t => [t]

end Template
end Horn
