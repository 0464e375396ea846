import Horn.Candidates

/-!
# Rule systems

A rule system states the clauses of an instance in terms of its undefined predicates alone, and of
one more relation for the contradiction: the *error*. A clause without conclusion concludes the
error; so does a clause that concludes a defined predicate, which gets the negated definition as one
more condition. On the left, defined predicates are expanded, and what is known about a predicate is
added to each of its applications.

An interpretation of the undefined predicates for which all rules hold while the error is false is
thus a model of the clauses relative to what is known.
-/

namespace Horn

/-- A rule: for all values of the variables, the body implies the head. -/
structure Rule where
  vars : List Constant
  body : List Term
  head : Term

/-- Rules about some relations. The error is a relation too. -/
structure RuleSystem where
  relations : List Symbol
  error : Symbol
  rules : List Rule

namespace RuleSystem

/-- The relation that stands for a contradiction. -/
def errorRelation : Symbol := ⟨"__chcsplit_error", [], .bool⟩

/-- The head of a rule that concludes the error. -/
def errorHead : Term := .fn errorRelation []

/-- A predicate applied to arguments. -/
def application (inst : Instance) (app : Nat × List Term) : Except Fault Term := do
  match (← inst.pred app.1).symbol.app? app.2 with
  | some t => pure t
  | none => throw Fault.illSorted

/-- What is known about a predicate, at arguments. -/
def knownAt (inst : Instance) (background : Accumulator) (app : Nat × List Term) :
    Except Fault (List Term) := do
  if !background.has app.1 then return []
  let p ← inst.pred app.1
  if p.params.isEmpty then return [background.conjunction app.1]
  if app.2.map Term.sort = p.sorts then
    pure [Term.substitute (p.params.zip app.2) (background.conjunction app.1)]
  else throw Fault.illSorted

/-- The conditions that an application on the left of a clause states. -/
def conditionsOf (callable : Callable) (inst : Instance) (background : Accumulator)
    (app : Nat × List Term) : Except Fault (List Term) := do
  let t ← inst.expand (← application inst app) callable
  let known ← knownAt inst background app
  pure (t :: known)

/-- A body is never empty. -/
def bodyOf (conditions : List Term) : List Term :=
  if conditions.isEmpty then [.verum] else conditions

/-- The rule that a clause states. -/
def ruleOf (callable : Callable) (inst : Instance) (background : Accumulator) (c : Clause) :
    Except Fault Rule := do
  let conditions ← c.apps.mapM (conditionsOf callable inst background)
  let body := c.terms ++ conditions.flatten
  match c.conclusion with
  | none => pure ⟨c.vars, bodyOf body, errorHead⟩
  | some app =>
    let t ← application inst app
    if ← inst.isKnown app.1 then
      pure ⟨c.vars, bodyOf (body ++ [(← inst.expand t callable).neg]), errorHead⟩
    else pure ⟨c.vars, bodyOf body, t⟩

/-- The rules that the clauses of an instance state, relative to what is known. -/
def ofInstance (callable : Callable) (inst : Instance) (background : Accumulator) :
    Except Fault RuleSystem := do
  let rules ← inst.clauses.mapM (ruleOf callable inst background)
  pure ⟨(inst.preds.filter (·.definition.isNone)).map (·.symbol), errorRelation, rules⟩

end RuleSystem

end Horn
