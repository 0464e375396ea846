import Horn.Fault

/-!
# Logged, stateful and failing computations

`Act σ α` is a computation that reads and updates a state `σ`, writes log records, and answers
with an `α` or fails with a `Fault`. A failure keeps the state and the records that were reached
before it, so that what went before stays visible.

`Act.zoom` runs a computation on a part of a larger state, `Act.attempt` turns a failure into a
value.
-/

namespace Horn

namespace Log

/-- How important a record is. -/
inductive Level where
  | debug
  | info
  deriving DecidableEq, Inhabited

/-- The threshold number of a level. -/
def Level.number : Level → Nat
  | .debug => 10
  | .info => 20

/-- The name of a level. -/
def Level.text : Level → String
  | .debug => "DEBUG"
  | .info => "INFO"

/-- The part of the library that writes a record. -/
inductive Channel where
  | accumulator | «instance» | preprocessing | splitting | learner | problems | oracle
  | entryPoints | reconstruction
  deriving DecidableEq, Inhabited

/-- The name under which a channel appears in printed records. -/
def Channel.text : Channel → String
  | .accumulator => "chcsplit.candidates"
  | .instance => "chcsplit.instance.model"
  | .preprocessing => "chcsplit.instance.preproc"
  | .splitting => "chcsplit.split"
  | .learner => "chcsplit.learner"
  | .problems => "chcsplit.frontend.smt2"
  | .oracle => "chcsplit.oracle"
  | .entryPoints => "chcsplit.unsat_core.entry_points"
  | .reconstruction => "chcsplit.unsat_core.reconstruct"

/-- A log record. A timed record ends with the time that the step has taken, which only the
outer layer knows. -/
structure Record where
  level : Level
  channel : Channel
  text : String
  timed : Bool
  deriving DecidableEq, Inhabited

/-- The text of a record, given the text for an elapsed time. -/
def Record.render (elapsed : String) (r : Record) : String :=
  if r.timed then r.text ++ ": " ++ elapsed else r.text

end Log

/-- Log records in the order in which they were written. -/
abbrev Log := List Log.Record

/-- A computation with state `σ`, log records and faults. -/
abbrev Act (σ α : Type) := ExceptT Fault (StateT σ (StateM Log)) α

namespace Act

variable {σ τ α : Type}

/-- Runs a computation from a state and an empty log. -/
def exec (act : Act σ α) (s : σ) : Except Fault α × σ × Log :=
  let ((r, s'), log) := (act.run.run s).run []
  (r, s', log)

/-- The computation that does what `f` says. -/
def ofFun (f : σ → Log → Except Fault α × σ × Log) : Act σ α :=
  ExceptT.mk fun s log => let (r, s', log') := f s log; ((r, s'), log')

/-- Writes a record. -/
def write (record : Log.Record) : Act σ Unit :=
  ofFun fun s log => (.ok (), s, log ++ [record])

/-- Writes a record of level `debug`. -/
def debug (channel : Log.Channel) (text : String) : Act σ Unit :=
  write ⟨.debug, channel, text, false⟩

/-- Writes a record of level `info`. -/
def info (channel : Log.Channel) (text : String) : Act σ Unit :=
  write ⟨.info, channel, text, false⟩

/-- Writes a record of level `debug` that ends with the elapsed time. -/
def debugTimed (channel : Log.Channel) (text : String) : Act σ Unit :=
  write ⟨.debug, channel, text, true⟩

/-- The answer of a computation that needs no state. -/
def ofExcept (r : Except Fault α) : Act σ α :=
  ofFun fun s log => (r, s, log)

/-- Runs a computation on a part of a larger state. -/
def zoom (view : τ → σ) (update : τ → σ → τ) (act : Act σ α) : Act τ α :=
  ofFun fun t log =>
    let ((r, s), log') := (act.run.run (view t)).run log
    (r, update t s, log')

/-- The outcome of a computation as a value; this computation itself never fails. -/
def attempt (act : Act σ α) : Act σ (Except Fault α) :=
  ofFun fun s log =>
    let ((r, s'), log') := (act.run.run s).run log
    (.ok r, s', log')

/-- Runs `act` and then `after`, also when `act` fails. A failure of `after` wins. -/
def finally' (act : Act σ α) (after : Act σ Unit) : Act σ α := do
  let r ← attempt act
  after
  ofExcept r

end Act

end Horn
