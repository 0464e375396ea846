import Horn.EntryPoints.Safe
import Horn.Oracle.Session
import Horn.Sample.Set

/-!
# Reconstructing entry points

Positive samples of a working instance are traced back to ground facts of the original instance
that it was obtained from. Both have the same predicates, but the working instance may have
reduced their signatures and may have defined some of them.

A sample `P(v)` is reconstructed from a clause of the original instance that concludes `P` and
has only safe predicates on the left, a clause without any being tried first. The oracle is asked
for values that make the conclusion `v`. The applications on the left, evaluated under these
values, are recorded if their predicate is positive; other safe predicates are accounted for by
their definitions.

`Reconstruction.witness` tries a single clause. It records nothing unless it succeeds.
-/

namespace Horn

/-- Where a fault comes from, as far as reconstruction tells the difference. -/
inductive FaultOrigin where
  | oracle | engine | value | other
  deriving DecidableEq

/-- The origin of a fault. -/
def Fault.origin : Fault → FaultOrigin
  | .cannotDeclare _ _ | .definitionsTwice _ | .definitionsMissing _
  | .originalArguments _ _ _ _ | .popUnmatched _ | .undecided _ _ | .modelMissing _ _ => .oracle
  | .illSorted | .noModel | .engineUnknown => .engine
  | .unknownValue | .unsupportedSort _ | .noSampleValue _ | .badNumber | .definitionArity _ _ =>
    .value
  | _ => .other

/-- The state of a reconstruction. -/
structure Reconstruction where
  original : Instance
  working : Instance
  /-- The samples still to reconstruct; the last one is next. -/
  todo : List Sample
  session : Session
  samples : SampleSet
  safe : List Nat
  positive : List Nat

namespace Reconstruction

/-- Checks that two instances have the same predicates. -/
def checkNames (original working : Instance) : Except Fault Unit := do
  if original.preds.length ≠ working.preds.length then
    throw (Fault.predicateCount original.preds.length working.preds.length)
  ((original.preds.zip working.preds).zipIdx).forM fun ((o, w), i) =>
    if o.name ≠ w.name then throw (Fault.predicateNames i o.name w.name) else pure ()

/-- The names of some predicates of an instance. -/
def predNames (inst : Instance) (ps : List Nat) : List String :=
  ps.map fun p => ((inst.preds[p]?).map (·.name)).getD ""

/-- A reconstruction that has not begun. -/
def create (original working : Instance) (todo : List Sample) (session : Session) :
    Except Fault (Reconstruction × Log) := do
  checkNames original working
  let safe := working.safePredicates
  pure (⟨original, working, todo, session, [], safe, working.positivePredicates⟩,
    [⟨.debug, .reconstruction,
      "safe predicates: " ++ ", ".intercalate (predNames working safe), false⟩])

/-- Runs a computation on the session. -/
def onSession {α : Type} (act : Act Session α) : Act Reconstruction α :=
  Act.zoom (·.session) (fun r s => { r with session := s }) act

/-- The clauses that may reconstruct a predicate: those without predicates on the left, and
those with safe predicates only. -/
def clausesFor (r : Reconstruction) (p : Int) : Except Fault (List Nat × List Nat) := do
  let clauses := (← r.original.producersOf p).filterMap (r.original.clauses[·]?)
  pure ((clauses.filter (·.uses.isEmpty)).map (·.index),
    (clauses.filter fun c =>
      !c.uses.isEmpty && c.usedPreds.all (r.safe.contains ·)).map (·.index))

/-- The equation of an argument and a value; none for an unknown value. -/
def pin (arg : Term) (v : Value) : Except Fault (Option Term) :=
  if v = .unknown then .ok none
  else (v.toTerm arg.sort).map fun t => some (.eq arg t)

/-- Asks for values under which a clause concludes `values`, and evaluates the applications on
its left. The answer is the samples of positive predicates, or `none` if there are no values. -/
def query (engine : Engine) (positive : List Nat) (c : Clause) (args : List Term)
    (values : List Value) : Act Session (Option (List Sample)) :=
  Session.scope do
    Session.declare (c.vars.map Term.const)
    c.terms.forM Session.assertTerm
    c.apps.forM fun (p, args) => Session.assertApp p args true engine.callable
    (args.zip values).forM fun (arg, v) => do
      match ← Act.ofExcept (pin arg v) with
      | some t => Session.assertTerm t
      | none => pure ()
    if ← Session.checkSat engine then
      let m ← Session.getModel
      let found ← c.uses.mapM fun u => do
        let samples ← Act.ofExcept (Sample.ofModel m u.pred u.args)
        pure (if positive.contains u.pred then samples else [])
      pure (some found.flatten)
    else pure none

/-- A failure of a query as a failure of reconstruction. -/
def blame (clause : Int) (sample : Sample) (fault : Fault) : Fault :=
  match fault.origin with
  | .oracle => .oracleFailed clause sample fault
  | .engine => .engineFailed clause sample fault
  | .value => .valueFailed clause sample fault
  | .other => fault

/-- Tries to reconstruct a sample from a clause; on success the samples on its left are
recorded. -/
def witness (engine : Engine) (pred : Int) (sample : Sample) (clause : Int) :
    Act Reconstruction Bool := do
  let r ← get
  let c ← Act.ofExcept (r.original.clause clause)
  match c.conclusion with
  | none => throw (Fault.noConclusion clause)
  | some (p, args) =>
    if (p : Int) ≠ pred then
      let concluded ← Act.ofExcept (r.original.pred p)
      let wanted ← Act.ofExcept (r.original.pred pred)
      throw (Fault.wrongConclusion clause sample concluded.name wanted.name)
    if args.length ≠ sample.args.length then throw (Fault.conclusionArity clause sample)
    match ← Act.attempt (onSession (query engine r.positive c args sample.args)) with
    | .error fault => throw (blame clause sample fault)
    | .ok none => pure false
    | .ok (some found) =>
      modify fun r => { r with samples := SampleSet.union r.samples found }
      pure true

/-- The first clause of a list that reconstructs a sample. -/
def firstWitness (engine : Engine) (pred : Int) (sample : Sample) :
    List Nat → Act Reconstruction (Option Nat)
  | [] => pure none
  | c :: cs => do
    if ← witness engine pred sample c then pure (some c)
    else firstWitness engine pred sample cs

/-- Reconstructs one sample. -/
def reconstruct (engine : Engine) (pred : Int) (sample : Sample) : Act Reconstruction Unit := do
  let r ← get
  let rendered ← Act.ofExcept (sample.textIn r.original)
  Act.debug .reconstruction ("working on " ++ rendered)
  let (facts, others) ← Act.ofExcept (r.clausesFor pred)
  Act.debug .reconstruction
    (toString facts.length ++ " positive clause(s), " ++ toString others.length
      ++ " usable clause(s)")
  match ← firstWitness engine pred sample facts with
  | some c =>
    Act.debug .reconstruction ("  reconstructed using positive clause #" ++ toString c)
  | none =>
    match ← firstWitness engine pred sample others with
    | some c =>
      Act.debug .reconstruction ("  reconstructed using non-positive clause #" ++ toString c)
    | none => throw (Fault.unreconstructable sample rendered)

/-- Reconstructs the samples still to do, the last one first, at most `fuel` of them. -/
def runAll (engine : Engine) : Nat → Act Reconstruction Unit
  | 0 => pure ()
  | fuel + 1 => do
    let r ← get
    match r.todo.getLast? with
    | none => pure ()
    | some sample =>
      set { r with todo := r.todo.dropLast }
      reconstruct engine sample.pred sample
      runAll engine fuel

/-- Reconstructs all samples. The definitions of the working instance are written first if there
is a safe predicate; the session is reset at the end. -/
def run (engine : Engine) : Act Reconstruction SampleSet := do
  let r ← get
  if !r.safe.isEmpty then onSession (Session.writeDefinitions r.working)
  runAll engine r.todo.length
  onSession (modify Session.reset)
  pure (← get).samples

end Reconstruction

end Horn
