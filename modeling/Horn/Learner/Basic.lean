import Horn.Instance.Expand
import Horn.Learner.Rules
import Horn.Split.Loop

/-!
# The learner

The learner of this library states a part as a rule system and asks a `RuleSolver` whether the error
can be derived. If it can, the part is unsatisfiable. If it cannot, the solver's interpretation
gives a fragment for each undefined predicate.

A solver may also leave the question open or refuse a system; the learner then fails.
-/

namespace Horn

/-- What a solver says about a rule system. -/
inductive RuleVerdict where
  /-- The error follows from the rules. -/
  | derivable
  /-- The formula of each relation at given arguments, for which all rules hold while the error is
  false. -/
  | solved (interpretation : Symbol → List Term → Term)
  | unknown
  /-- The system is not of the form that the solver handles. -/
  | refused

/-- A decision procedure for rule systems. -/
abbrev RuleSolver := RuleSystem → RuleVerdict

namespace Learner

/-- The candidate that an interpretation gives: a fragment for each undefined predicate, over its
formal parameters. -/
def candidateOf (inst : Instance) (interpretation : Symbol → List Term → Term) : Definitions :=
  (inst.preds.zipIdx.filter (·.1.definition.isNone)).map fun (p, i) =>
    ((i : Int), interpretation p.symbol (p.params.map Term.const))

/-- The answer to a part, relative to what is known. -/
def answer (callable : Callable) (solver : RuleSolver) (inst : Instance)
    (background : Accumulator) : Except Fault Learned := do
  match solver (← RuleSystem.ofInstance callable inst background) with
  | .derivable => pure (.unsat "by learner")
  | .solved interpretation => pure (.candidate (candidateOf inst interpretation))
  | .unknown => throw (Fault.learnerUndecided inst.title)
  | .refused => throw (Fault.learnerRefused inst.title .engineUnknown)

/-- Notes the fragments of a candidate. -/
def note {σ : Type} (inst : Instance) (candidate : Definitions) : Act σ Unit :=
  candidate.forM fun (p, fragment) => do
    let q ← Act.ofExcept (inst.pred p)
    Act.debug .learner (q.name ++ ": " ++ fragment.text)

/-- The learner that asks a solver. It keeps no state and holds no instance. -/
def ofSolver (κ : Type) (solver : RuleSolver) (callable : Callable := .any) : Learner κ where
  solve inst background := do
    match ← Act.ofExcept (answer callable solver inst background) with
    | .candidate candidate =>
      note inst candidate
      pure (.candidate candidate)
    | verdict => pure verdict

end Learner

end Horn
