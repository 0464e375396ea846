import Horn.Arith.Elimination
import Horn.Decision.Flatten

/-!
# Quantified formulas

`withoutQuantifiers` removes the quantifiers of a formula that is to be satisfied.

A quantifier that asserts existence where it stands is removed by naming what exists. Any other
quantified formula is looked at by itself: it is valid if its negation has no model, and a closed
formula is then either valid or contradictory. What remains is named by a Boolean constant, which
makes the result weaker than the formula.
-/

namespace Horn
namespace Decision

open Term Arith

mutual

/-- Whether no variable is bound outside the term, which stands under `depth` binders. -/
def isClosedAt (depth : Nat) : Term → Bool
  | .lit _ => true
  | .bound i _ => decide (i < depth)
  | .fn _ as => areClosedAt depth as
  | .op _ as => areClosedAt depth as
  | .quant _ xs b => isClosedAt (depth + xs.length) b

/-- `isClosedAt` for all terms of a list. -/
def areClosedAt (depth : Nat) : List Term → Bool
  | [] => true
  | a :: as => isClosedAt depth a && areClosedAt depth as

end

/-- Fresh constants of the sorts of some binders. -/
def freshFor (xs : List Constant) : StateM Names (List Term) := xs.mapM fun x => fresh x.sort

/-- Whether a quantifier asserts existence at a place that is positive, negative or both. -/
def assertsExistence (q : Quantifier) (polarity : Option Bool) : Bool :=
  match q, polarity with
  | .some, some true => true
  | .all, some false => true
  | _, _ => false

/-- What a quantified formula amounts to by itself, given a decision procedure. -/
def valueOf? (decide : List Term → Answer Valuation) (q : Quantifier) (xs : List Constant)
    (body : Term) : StateM Names (Option Bool) := do
  if !isClosedAt xs.length body then pure none
  else
    let cs ← freshFor xs
    let instanceOf := instantiateAt cs.reverse 0 body
    let query := if q == .all then Term.neg instanceOf else instanceOf
    let closed := body.symbols.isEmpty
    match decide [query] with
    | .unsat => pure (some (q == .all))
    | .sat _ => pure (if closed then some (q != .all) else none)
    | .unknown => pure none

mutual

/-- The formula without quantifiers, at a place of the given polarity. -/
def withoutQuantifiers (decide : List Term → Answer Valuation) (polarity : Option Bool) :
    Term → StateM Names Term
  | .lit a => pure (.lit a)
  | .bound i s => pure (.bound i s)
  | .fn f as => do pure (.fn f (← withoutQuantifiersList decide none as))
  | .op f as =>
    match f, as with
    | .not, [t] => do
      pure (.op .not [← withoutQuantifiers decide (polarity.map (!·)) t])
    | .implies, [s, t] => do
      pure (.op .implies [← withoutQuantifiers decide (polarity.map (!·)) s,
        ← withoutQuantifiers decide polarity t])
    | .and, as => do pure (.op .and (← withoutQuantifiersList decide polarity as))
    | .or, as => do pure (.op .or (← withoutQuantifiersList decide polarity as))
    | f, as => do pure (.op f (← withoutQuantifiersList decide none as))
  | .quant q xs b => do
    if assertsExistence q polarity then
      let b ← withoutQuantifiers decide polarity b
      let cs ← freshFor xs
      pure (instantiateAt cs.reverse 0 b)
    else
      match ← valueOf? decide q xs b with
      | some v => pure (bool v)
      | none => opaqueTerm (.quant q xs b) .bool

/-- `withoutQuantifiers` on each term of a list. -/
def withoutQuantifiersList (decide : List Term → Answer Valuation) (polarity : Option Bool) :
    List Term → StateM Names (List Term)
  | [] => pure []
  | a :: as => do
    let b ← withoutQuantifiers decide polarity a
    let bs ← withoutQuantifiersList decide polarity as
    pure (b :: bs)

end

end Decision
end Horn
