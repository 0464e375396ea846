import Horn.Fixpoint.Template
import Horn.Fixpoint.Unfold
import Horn.Learner.Basic

/-!
# A solver for rule systems

`RuleSolver.ofEngine` first saturates a frame over the templates. If the frame is closed, so that no
step leads out of it, it is an interpretation for which all rules hold while the error is false.
Otherwise a derivation of the error is searched for. Where neither is found, the question is left
open.
-/

namespace Horn

namespace RuleSolver

/-- The number of goals that a search for a derivation looks at. -/
def searchLimit : Nat := 1000

/-- The frame that the steps with other conclusions than the error fill. -/
def frameOf (engine : Engine) (sys : RuleSystem) (steps : List Step) : Frame :=
  let relations := sys.relations.filter (· != sys.error)
  let templates := Template.all engine.simplify sys.error steps
  let inner := steps.filter (·.conclusion.1 != sys.error)
  Frame.saturate engine templates inner (Frame.bound templates relations) (Frame.bottom relations)

/-- The solver that relies on a logic engine. -/
def ofEngine (engine : Engine) : RuleSolver := fun sys =>
  match sys.steps? with
  | none => .refused
  | some steps =>
    let frame := frameOf engine sys steps
    if frame.isClosed engine steps then .solved (frame.prune engine).formula
    else
      let inner := steps.filter (·.conclusion.1 != sys.error)
      let hints := if frame.isClosed engine inner then frame else
        sys.relations.map fun r => (r, some [])
      match Unfold.search engine hints steps searchLimit (Unfold.start sys.error steps) with
      | .derivation => .derivable
      | _ => .unknown

end RuleSolver

end Horn
