import Horn.CommandLine.Arguments
import Horn.Config.Basic
import Horn.Learner.Basic
import Horn.Smt.Problem

/-!
# Reports

`Report.ofArguments` is the program as a function: from the arguments and from what lies in the file
system to a report, which has all that the program shows and its exit code. `Readers` are what
problems and settings are read with.

The exit code is 0 for an answer other than `unsat`, 1 for `unsat`, 2 if the arguments cannot be
read, and 3 for a fault. Faults that the program does not foresee (`Fault.isForeseen`) end it
with 1.

Log records are shown from a level on: all with `--verbose`, and otherwise those from the level that
the settings give; `--split-step` shows at least level `info`.
-/

namespace Horn

/-- Whether the command line foresees a fault, so that it reports the fault as an error. -/
def Fault.isForeseen : Fault → Bool
  | .unparsable _ _ | .nestedQuantifier _ | .hiddenPredicate _ _ | .existential _
  | .unreadableConfig _ _ | .configNotMapping _ | .timeoutNotInteger _ | .unknownLevel _
  | .fileMissing _ | .isDirectory _ | .notDirectory _
  | .splitting _ _ | .learnerRefused _ _ | .learnerUndecided _ | .unknownSample _ _
  | .cannotDeclare _ _ | .definitionsTwice _ | .definitionsMissing _ | .originalArguments _ _ _ _
  | .popUnmatched _ | .undecided _ _ | .modelMissing _ _
  | .predicateCount _ _ | .predicateNames _ _ _ | .noConclusion _ | .wrongConclusion _ _ _ _
  | .conclusionArity _ _ | .oracleFailed _ _ _ | .engineFailed _ _ _ | .valueFailed _ _ _
  | .unreconstructable _ _ => true
  | _ => false

namespace CommandLine

/-- The answer of a command. -/
inductive Answer where
  /-- A problem and the order of its splits, line by line. -/
  | listing (lines : List String)
  | unsat
  /-- No contradiction was found, and no model was asked for. -/
  | noModel
  /-- A model, as the name and the formula of each predicate. -/
  | sat (definitions : List (String × Term))

/-- The lines in which an answer is shown. -/
def Answer.lines : Answer → List String
  | listing lines => lines
  | unsat => ["unsat"]
  | noModel => ["sat (no model requested)"]
  | sat definitions => "sat" :: definitions.map fun (name, t) => "  " ++ name ++ ": " ++ t.text

/-- How a run ends. -/
inductive Ending where
  | refused (refusal : Refusal)
  | answered (answer : Answer)
  | failed (fault : Fault)

/-- The exit code of a run. -/
def Ending.exitCode : Ending → Nat
  | refused .help => 0
  | refused .misuse => 2
  | answered .unsat => 1
  | answered _ => 0
  | failed fault => if fault.isForeseen then 3 else 1

/-- What a run shows: how it ends, and the log records before that. -/
structure Report where
  ending : Ending
  records : Log

/-! ### Commands -/

/-- What reads the texts of problems and the documents of settings. -/
structure Readers where
  script : Smt.Reader := Smt.Script.assertions?
  document : Yaml.Reader := Yaml.Datum.ofBytes

/-- The settings with the options of a request on top. -/
def Request.adjust (r : Request) (c : SplitConfig) : SplitConfig where
  enabled := c.enabled && !r.has .noSplit
  sort := c.sort && !r.has .noSplitSort
  infer := c.infer && !r.has .checkOnly
  step := c.step || r.has .splitStep

/-- The settings of a request. -/
def Request.settings (files : Files) (r : Request) (readers : Readers := {}) :
    Except Fault Config := do
  let c ← match r.config with
    | some path => Config.ofFile files path readers.document
    | none => Config.load files readers.document
  pure { c with split := r.adjust c.split }

/-- The number of the level from which on records are shown. -/
def Request.threshold (r : Request) (c : Config) : Except Fault Nat := do
  if r.has .verbose then return Log.Level.debug.number
  let n ← Level.number c.level
  pure (if c.split.step then min n Log.Level.info.number else n)

/-- Solves the problem in a file. -/
def solveFile (engine : Engine) (solver : RuleSolver) (files : Files) (config : SplitConfig)
    (path : String) (readers : Readers := {}) : Act Unit Answer := do
  let inst ← Problem.loadFile files path readers.script
  let learner :=
    if config.infer then some (Learner.ofSolver Unit solver engine.callable) else none
  let (outcome, _, log) := solve engine inst config (.standard engine Unit) learner () ()
  log.forM Act.write
  match ← Act.ofExcept outcome with
  | .unsat _ => pure .unsat
  | .noModel => pure .noModel
  | .model m => do
    let definitions ← m.definitions.mapM fun (p, t) => do
      pure ((← Act.ofExcept (inst.pred p)).name, t)
    pure (.sat definitions)

/-- The line that shows in which order an instance is split. -/
def orderLine (inst : Instance) (sort : Bool) : String :=
  let order := (inst.splitOrder sort).reverse
  "split order: " ++ if order.isEmpty then "none" else Splitter.handlesText order

/-- Shows the problem in a file. -/
def showFile (files : Files) (sort : Bool) (path : String) (readers : Readers := {}) :
    Act Unit Answer := do
  let inst ← Problem.loadFile files path readers.script
  pure (.listing (inst.infoLines ++ [orderLine inst sort]))

namespace Report

/-- The report on a computation, with the records from a level on. -/
def ofAct (threshold : Nat) (act : Act Unit Answer) : Report :=
  let (r, _, log) := act.exec ()
  let shown := log.filter fun record => decide (threshold ≤ record.level.number)
  match r with
  | .ok answer => ⟨.answered answer, shown⟩
  | .error fault => ⟨.failed fault, shown⟩

/-- The report on a request. Showing a problem needs no settings and shows no records. -/
def ofRequest (engine : Engine) (solver : RuleSolver) (files : Files) (r : Request)
    (readers : Readers := {}) : Report :=
  match r.command with
  | .info =>
    { ofAct 0 (showFile files (!r.has .noSplitSort) r.target readers) with records := [] }
  | .solve =>
    let settings := do
      let config ← r.settings files readers
      pure (config, ← r.threshold config)
    match settings with
    | .error fault => ⟨.failed fault, []⟩
    | .ok (config, threshold) =>
      ofAct threshold (solveFile engine solver files config.split r.target readers)

/-- The report of the program. -/
def ofArguments (engine : Engine) (solver : RuleSolver) (files : Files) (arguments : List String)
    (readers : Readers := {}) : Report :=
  match Request.ofArguments arguments with
  | .error refusal => ⟨.refused refusal, []⟩
  | .ok r => ofRequest engine solver files r readers

/-! ### Lines -/

/-- How the program is called. -/
def usage : List String := [
  "usage: horn solve FILE [options]   split a problem, learn a model, and show it",
  "       horn info FILE [options]    show a problem and the order of its splits",
  "",
  "options of solve:",
  "  --config PATH      read the settings from a file",
  "  --no-split         solve the instance as a whole",
  "  --no-split-sort    split in the order of the clauses instead of by connectivity",
  "  --check-only       only preprocess the splits",
  "  --split-step       report every split",
  "  --timeout INT      the time limit of the learner in milliseconds",
  "  --verbose          show all log records",
  "",
  "options of info:",
  "  --no-split-sort    show the order of the clauses"]

/-- The lines on the standard output. -/
def output (r : Report) : List String :=
  match r.ending with
  | .refused .help => usage
  | .answered answer => answer.lines
  | _ => []

/-- The line that shows a log record. -/
def recordLine (elapsed : String) (record : Log.Record) : String :=
  record.level.text ++ ":" ++ record.channel.text ++ ":" ++ record.render elapsed

/-- The lines on the standard error, given the text for an elapsed time and words for the causes of
faults. -/
def errors (elapsed : String) (wording : Fault → Option String) (r : Report) : List String :=
  r.records.map (recordLine elapsed) ++
    match r.ending with
    | .refused .misuse => usage
    | .failed fault => ["error: " ++ fault.messageWith wording]
    | _ => []

/-- The exit code of the program. -/
def exitCode (r : Report) : Nat := r.ending.exitCode

end Report

end CommandLine
end Horn
