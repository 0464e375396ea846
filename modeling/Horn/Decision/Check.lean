import Horn.Decision.Encode
import Horn.Decision.Quantifier
import Horn.Engine

/-!
# Satisfiability

`decide` puts the parts together: quantifiers are removed, definitions are put in, squares and
powers are solved, what is left is flattened, translated to linear constraints, and searched.
The values that are found make a valuation of all constants.

Where flattening had to weaken the formulas, the valuation is checked against them, and the
answer is `unknown` if it fails.

`Engine.standard` is the logic engine with this procedure and with `Term.simplify`.
-/

namespace Horn
namespace Decision

open Term Arith

/-- The value that stands for a number in a sort. -/
def valueIn (sort : TermSort) (q : Rat) : Term :=
  match sort with
  | .real => real q
  | .bitVec w => bitVec w q.num
  | .free name => const ⟨name ++ "!val!" ++ toString q.num, sort⟩
  | _ => int q.num

/-- A value of a representing sort as a value of a sort. -/
def represent (sort : TermSort) (t : Term) : Term :=
  match sort, t.numeral? with
  | .bool, _ => t
  | s, some q => valueIn s q
  | _, none => t

/-- The valuation that an assignment describes. -/
def valuationOf (numbering : Numbering) (names : Names) (a : Assignment) : Valuation :=
  let numbers := numbering.numbers.zipIdx.map fun (c, i) =>
    (c, valueIn c.sort (Values.get a.numbers i))
  let flags := numbering.flags.zipIdx.map fun (c, i) =>
    (c, bool (((a.flags.find? (·.1 == i)).map (·.2)).getD false))
  let base : Valuation := ⟨numbers ++ flags, []⟩
  let named := names.known.filterMap fun (key, c) =>
    match key with
    | .fn f [] => some ((⟨f.name, f.range⟩ : Constant), represent f.range (base.eval c))
    | _ => none
  let applications := names.applications.map fun (f, args, c) =>
    (f, (f.domain.zip args).map fun (s, t) => represent s (base.eval t),
      represent f.range (base.eval c))
  ⟨named ++ numbers ++ flags, applications⟩

/-- Decides a conjunction without quantifiers. -/
def solveFlat (names : Names) (ts : List Term) : Answer Valuation :=
  let (flat, names) := (flattenList (ts.map lookups)).run names
  let all := flat ++ names.side
  match (encodeList true all).run default with
  | (none, _) => .unknown
  | (some fs, numbering) =>
    let kinds : Kinds := fun i => ((numbering.numbers[i]?).map (·.sort != .real)).getD true
    match (Formula.all fs).solve kinds with
    | .unsat => .unsat
    | .unknown => .unknown
    | .sat a =>
      let v := valuationOf numbering names a
      if names.relaxed && !(ts.all fun t => (v.eval t).isVerum) then .unknown else .sat v

/-- Decides a conjunction without quantifiers: first definitions and special equations, at most
`fuel` of the latter. -/
def settle (names : Names) : Nat → List Term → List (Constant × Term) → Answer Valuation
  | 0, _, _ => .unknown
  | fuel + 1, ts, found =>
    let ts := conjuncts ts
    let (ts, found) := solveFor (ts.flatMap constantsOf).length ts found
    if ts.any (·.isFalsum) then .unsat
    else match firstSpecial ts with
      | some (cases, rest) => firstSat (fun c => settle names fuel (c :: rest) found) cases
      | none => (solveFlat names ts).map fun v => extend v found

/-- Decides a conjunction; `fuel` bounds the nesting of quantifiers. -/
def decideWithin : Nat → List Term → Answer Valuation
  | 0, _ => .unknown
  | fuel + 1, ts =>
    let ts := conjuncts ts
    let (ts', names) :=
      (withoutQuantifiersList (decideWithin fuel) (some true) ts).run (Names.avoiding ts)
    match settle names ((sizeList ts') + 2) ts' [] with
    | .sat v =>
      if names.relaxed && !(ts.all fun t => (v.eval t).isVerum) then .unknown else .sat v
    | answer => answer

mutual

/-- How deep quantifiers are nested. -/
def quantifierDepth : Term → Nat
  | .lit _ => 0
  | .bound _ _ => 0
  | .fn _ as => quantifierDepthList as
  | .op _ as => quantifierDepthList as
  | .quant _ _ b => quantifierDepth b + 1

/-- The greatest depth in a list of terms. -/
def quantifierDepthList : List Term → Nat
  | [] => 0
  | a :: as => max (quantifierDepth a) (quantifierDepthList as)

end

/-- Decides a conjunction of formulas. -/
def decide (ts : List Term) : Answer Valuation :=
  decideWithin (quantifierDepthList ts + 1) ts

/-- The answer to a query as a verdict. -/
def check (ts : List Term) : Verdict :=
  match decide ts with
  | .unsat => .unsat
  | .sat v => .sat ⟨fun t => simplify (v.eval (lookups t))⟩
  | .unknown => .unknown

end Decision

/-- The logic engine of this library. -/
def Engine.standard : Engine where
  simplify := Term.simplify
  check := Decision.check

end Horn
