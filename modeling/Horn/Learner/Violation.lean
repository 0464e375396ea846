import Horn.Candidates
import Horn.Learner.Rules

/-!
# Violated clauses

Candidate definitions, together with the definitions of an instance, say what each predicate is. A
clause is violated if its conditions can hold while its conclusion does not: `Accumulator.violated`
asks the logic engine about every clause, and counts a clause as violated unless the engine excludes
it.
-/

namespace Horn
namespace Accumulator

/-- What a predicate is at arguments: by its definition, or else by its candidate. -/
def meaning (callable : Callable) (inst : Instance) (m : Accumulator) (app : Nat × List Term) :
    Except Fault Term := do
  if ← inst.isKnown app.1 then inst.expand (← RuleSystem.application inst app) callable
  else pure (conjoin (← RuleSystem.knownAt inst m app))

/-- Formulas that can be satisfied together exactly when a clause is violated. -/
def violation (callable : Callable) (inst : Instance) (m : Accumulator) (c : Clause) :
    Except Fault (List Term) := do
  let conditions ← c.apps.mapM (m.meaning callable inst)
  let refuted ← match c.conclusion with
    | none => pure []
    | some app => do pure [(← m.meaning callable inst app).neg]
  pure (c.terms ++ conditions ++ refuted)

/-- The clauses that are violated, as far as the engine does not exclude it. -/
def violated (engine : Engine) (inst : Instance) (m : Accumulator) : Except Fault (List Nat) := do
  let checked ← inst.clauses.mapM fun c => do
    match engine.check (← m.violation engine.callable inst c) with
    | .unsat => pure none
    | _ => pure (some c.index)
  pure (checked.filterMap id)

end Accumulator
end Horn
