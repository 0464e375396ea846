import Horn.Candidates
import Horn.Split.Splitter

/-!
# The split loop

`solve` splits an instance, has the learner solve each part, and collects the partial models in
an accumulator. It stops at the first part that is unsatisfiable. Without inference only
preprocessing is run.

A learned candidate is completed by the definitions of its part. If nobody holds the part any
more after the learner has returned, the candidate is expanded and simplified in place before it
is collected; the top-level instance is always held.

The parts that the learner has been called on are kept in the state. It may go on holding a part,
and release it in a later call.
-/

namespace Horn

/-- The answer of a learner on one part. -/
inductive Learned where
  /-- A fragment for each of some predicates, over their formal parameters. -/
  | candidate (model : Definitions)
  /-- The part is unsatisfiable, with the reason. -/
  | unsat (reason : String)

/-- A learning collaborator with states in `κ`. It is given a part and what is known so far. -/
structure Learner (κ : Type) where
  solve : Instance → Accumulator → Act (Visitor κ) Learned

/-- The result of the split loop. -/
inductive Outcome where
  | model (candidates : Accumulator)
  /-- No contradiction was found, and no model was asked for. -/
  | noModel
  | unsat (reason : String)

/-- What is said of an unsatisfiable instance. -/
def unsatText (reason : String) : String :=
  if reason.isEmpty then "unsat" else "unsat (" ++ reason ++ ")"

/-- The state of the split loop. -/
structure SplitState (π κ : Type) where
  splitter : Splitter π
  candidates : Accumulator
  learner : Visitor κ
  /-- The parts that the learner has been called on, the last one first, as they were left. The
  top-level instance is `none`. -/
  parts : List (Option Instance)

namespace Holds

/-- The holds on the top-level instance, which is `none` among the instances that were given. -/
def onTop {α : Type} (h : Holds) : List (Option α) → Nat
  | [] => 0
  | none :: given => h.last + h.earlier.onTop given
  | some _ :: given => h.earlier.onTop given

/-- The parts when the holds on them have changed. -/
def settle (before after : Holds) : List (Option Instance) → List (Option Instance)
  | [] => []
  | part :: parts =>
    part.map (·.rehold before.last after.last) :: before.earlier.settle after.earlier parts

end Holds

namespace SplitState

variable {π κ : Type}

/-- Runs a computation on the splitter. -/
def onSplitter {α : Type} (act : Act (Splitter π) α) : Act (SplitState π κ) α :=
  Act.zoom (·.splitter) (fun s p => { s with splitter := p }) act

/-- Records what is learned. -/
def merge (engine : Engine) (model : Definitions) : Act (SplitState π κ) Unit := do
  let top := (← get).splitter.top
  Act.zoom (·.candidates) (fun s m => { s with candidates := m })
    (Accumulator.merge engine top model)

/-- The state after a call of the learner on a part. The learner may have taken and released holds
on this part and on those before. -/
def taught (s : SplitState π κ) (reduced : Option Instance) (v : Visitor κ) : SplitState π κ :=
  let parts := reduced :: s.parts
  let before := s.learner.holds.next
  { s with
    splitter := { s.splitter with
      top := s.splitter.top.rehold (before.onTop parts) (v.holds.onTop parts) }
    learner := v
    parts := before.settle v.holds parts }

/-- The part that the learner was called on last. -/
def lastPart (s : SplitState π κ) : Instance := (s.parts.headD none).getD s.splitter.top

/-- The part that the learner is given. -/
def given (s : SplitState π κ) (reduced : Option Instance) : Instance :=
  reduced.getD s.splitter.top

/-- Runs the learner on a part that it is given to hold for the time of the call. -/
def runLearner (learner : Learner κ) (reduced : Option Instance) :
    Act (SplitState π κ) (Except Fault Learned) := do
  let s ← get
  Act.zoom (·.learner.next) (fun s v => s.taught reduced v)
    (Act.attempt (learner.solve (s.given reduced).retain s.candidates))

/-- Completes a candidate for a part, simplifies it if the part is exclusive, and records it. -/
def collect (engine : Engine) (part : Instance) (candidate : Definitions) :
    Act (SplitState π κ) Instance := do
  Act.info .splitting "sat"
  let model ← Act.ofExcept (part.definitionsFrom candidate)
  let (model, part) ←
    -- Nobody else holds the part, so its memory of expansions may grow.
    if part.isExclusive then do
      let (r, part', log) := (Instance.simplifyInPlace engine model).exec part
      log.forM Act.write
      let model ← Act.ofExcept r
      pure (model, part')
    else do
      Act.debug .splitting (part.title ++ " is shared, merging raw candidate")
      pure (model, part)
  merge engine model
  pure part

/-- Has the learner solve a part. The answer is the reason if the part is unsatisfiable. -/
def learn (engine : Engine) (learner : Learner κ) (reduced : Option Instance) :
    Act (SplitState π κ) (Option String) := do
  Act.info .splitting "Starting learning..."
  match ← runLearner learner reduced with
  | .error e => throw e
  | .ok answer =>
    Act.debugTimed .splitting "learner"
    match answer with
    | .unsat reason => pure (some reason)
    | .candidate candidate =>
      let part ← collect engine (← get).lastPart candidate
      -- The part has come to remember expansions, unless it is the top-level instance.
      modify fun s => { s with parts := reduced.map (fun _ => part) :: s.parts.tail }
      pure none

/-- Handles one part: `some reason` when it is unsatisfiable. -/
def handle (engine : Engine) (config : SplitConfig) (learner : Option (Learner κ)) :
    Reduced → Act (SplitState π κ) (Option String)
  | .trivial none => pure (some "by preprocessing")
  | .trivial (some model) => do
    Act.info .splitting "sat by preproc"
    merge engine model
    pure none
  | .whole => part none
  | .sub inst => part (some inst)
where
  /-- A part that preprocessing has not decided. -/
  part (reduced : Option Instance) : Act (SplitState π κ) (Option String) :=
    match config.infer, learner with
    | true, some learner => learn engine learner reduced
    | _, _ => do
      Act.info .splitting "Skipping learning..."
      pure none

/-- Announces the next split. -/
def report (config : SplitConfig) : Act (SplitState π κ) Unit := do
  match (← get).splitter.peek with
  | none => pure ()
  | some info =>
    Act.write ⟨if config.step then .info else .debug, .splitting,
      "Splitting on negative clause #" ++ toString info.clause ++ " ("
        ++ toString (info.handled + 1) ++ " of " ++ toString info.total ++ ")", false⟩

/-- Handles at most `fuel` parts; `some reason` when one is unsatisfiable. -/
def loop (engine : Engine) (config : SplitConfig) (preprocessor : Preprocessor π)
    (learner : Option (Learner κ)) : Nat → Act (SplitState π κ) (Option String)
  -- The fuel exceeds the number of parts, so the end is seen before.
  | 0 => pure none
  | fuel + 1 => do
    report config
    match ← onSplitter (Splitter.advance preprocessor) with
    | none => pure none
    | some reduced =>
      match ← handle engine config learner reduced with
      | some reason => pure (some reason)
      | none => loop engine config preprocessor learner fuel

/-- The loop on all parts. There is one part for each negative clause, or a single one. -/
def run (engine : Engine) (config : SplitConfig) (preprocessor : Preprocessor π)
    (learner : Option (Learner κ)) : Act (SplitState π κ) Outcome := do
  onSplitter Splitter.announce
  let parts := (← get).splitter.total + 1
  match ← loop engine config preprocessor learner parts with
  | some reason => pure (.unsat reason)
  | none => if config.infer then pure (.model (← get).candidates) else pure .noModel

/-- The state in which the loop starts on an instance. -/
def create (inst : Instance) (config : SplitConfig) (preprocessor : π) (learner : κ) :
    SplitState π κ :=
  ⟨Splitter.create inst config preprocessor, Accumulator.empty, ⟨learner, 0⟩, []⟩

/-- The loop, after which the instance is let go. -/
def solve (engine : Engine) (config : SplitConfig) (preprocessor : Preprocessor π)
    (learner : Option (Learner κ)) : Act (SplitState π κ) Outcome :=
  Act.finally' (run engine config preprocessor learner) (onSplitter Splitter.close)

end SplitState

/-- Splits an instance if that is asked for and solves it. The final state has the instance and
the parts as they were left. -/
def solve {π κ : Type} (engine : Engine) (inst : Instance) (config : SplitConfig)
    (preprocessor : Preprocessor π) (learner : Option (Learner κ)) (p : π) (l : κ) :
    Except Fault Outcome × SplitState π κ × Log :=
  if config.infer && learner.isNone then
    let s := SplitState.create inst config p l
    (.error .learnerMissing, { s with splitter := { s.splitter with top := inst } }, [])
  else
    (SplitState.solve engine config preprocessor learner).exec
      (SplitState.create inst config p l)

end Horn
