import Horn.Instance.Predicate

/-!
# Clauses

A clause `terms ∧ P₁(a₁) ∧ … ∧ Pₖ(aₖ) → Q(b)` over its variables; without a conclusion it says
that its hypotheses are contradictory. Applications on the left are kept by predicate, in the
order in which the predicates first occur, and no application is kept twice.
-/

namespace Horn

/-- The applications of one predicate on the left of a clause. -/
structure Uses where
  pred : Nat
  args : List (List Term)
  deriving Inhabited

/-- A Horn clause. -/
structure Clause where
  index : Nat
  vars : List Constant
  terms : List Term
  uses : List Uses
  conclusion : Option (Nat × List Term)
  fromUnrolling : Bool
  strict : Bool
  deriving Inhabited

namespace Uses

/-- Adds one application, unless the same one is there. -/
def insert (pred : Nat) (args : List Term) : List Uses → List Uses
  | [] => [⟨pred, [args]⟩]
  | u :: us =>
    if u.pred = pred then
      (if args ∈ u.args then u else ⟨pred, u.args ++ [args]⟩) :: us
    else u :: insert pred args us

/-- The applications of a list, grouped by predicate. -/
def group (apps : List (Nat × List Term)) : List Uses :=
  apps.foldl (fun us (p, args) => insert p args us) []

/-- The applications one by one. -/
def flatten (us : List Uses) : List (Nat × List Term) :=
  us.flatMap fun u => u.args.map fun args => (u.pred, args)

end Uses

namespace Clause

/-- Whether the clause has no conclusion. -/
def isNegative (c : Clause) : Bool := c.conclusion.isNone

/-- Whether the clause is negative and was not obtained by a transformation. -/
def isStrictNegative (c : Clause) : Bool := c.conclusion.isNone && c.strict

/-- Whether the clause states a fact: a conclusion without predicates on the left. -/
def isPositive (c : Clause) : Bool := c.conclusion.isSome && c.uses.isEmpty

/-- The applications on the left, grouped by predicate. -/
def apps (c : Clause) : List (Nat × List Term) := Uses.flatten c.uses

/-- The predicates on the left, in the order of their first occurrence. -/
def usedPreds (c : Clause) : List Nat := c.uses.map (·.pred)

/-- The text of an application. -/
def appText (preds : List Predicate) (app : Nat × List Term) : String :=
  let name := ((preds[app.1]?).map (·.name)).getD ""
  if app.2.isEmpty then "(" ++ name ++ ")"
  else "(" ++ name ++ " " ++ " ".intercalate (app.2.map Term.text) ++ ")"

/-- The text of a clause: `#0: x == 0 /\ (P x) => (P y)`. -/
def text (preds : List Predicate) (c : Clause) : String :=
  let left := c.terms.map Term.text ++ c.apps.map (appText preds)
  let right := match c.conclusion with
    | none => "false"
    | some app => appText preds app
  let tags := (if c.fromUnrolling then ["unrolling"] else [])
    ++ (if c.strict then [] else ["non-strict"])
  "#" ++ toString c.index ++ ": "
    ++ (if left.isEmpty then "true" else " /\\ ".intercalate left) ++ " => " ++ right
    ++ (if tags.isEmpty then "" else "  [" ++ ", ".intercalate tags ++ "]")

end Clause

end Horn
