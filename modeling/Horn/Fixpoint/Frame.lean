import Horn.Engine
import Horn.Fixpoint.Step

/-!
# Frames

A frame over-approximates what can be derived: for each relation it says that nothing has been
derived, or gives conditions that everything derived so far satisfies.

The conditions come in chains. The formulas of a chain grow weaker from the first to the last, and
only the first one is in force. When a model shows that more can be derived, each chain gives up
formulas from its front until one holds in the model (`Frame.widen`). Since chains only get shorter,
`Frame.saturate` comes to an end; a frame that no step leaves (`Frame.isClosed`) contains everything
that can be derived.
-/

namespace Horn

/-- Formulas over the parameters of a relation, each of them implied by the one before it. -/
abbrev Chain := List Term

/-- What is said about each relation; `none` if nothing has been derived. -/
abbrev Frame := List (Symbol × Option (List Chain))

namespace Frame

/-- The parameters over which the conditions of a relation are formulas. -/
def params (r : Symbol) : List Constant :=
  r.domain.zipIdx.map fun (s, i) => ⟨Step.variableName i, s⟩

/-- A formula over the parameters at arguments. -/
def at' (r : Symbol) (args : List Term) (t : Term) : Term :=
  Term.substitute ((params r).zip args) t

/-- The frame in which nothing has been derived. -/
def bottom (relations : List Symbol) : Frame := relations.map fun r => (r, none)

/-- The conditions of a relation at arguments. -/
def conditions (frame : Frame) (r : Symbol) (args : List Term) : List Term :=
  match frame.lookup r with
  | some (some chains) => (chains.filterMap List.head?).map (at' r args)
  | _ => [.falsum]

/-- The formula of a relation at arguments. -/
def formula (frame : Frame) (r : Symbol) (args : List Term) : Term :=
  Accumulator.conjoin (frame.conditions r args)

/-- Queries of which one can be satisfied exactly when a step leads out of the frame: one for each
condition of the conclusion. -/
def escapes (frame : Frame) (s : Step) : List (List Term) :=
  let inside := s.guard ++ s.premises.flatMap fun (r, args) => frame.conditions r args
  (frame.conditions s.conclusion.1 s.conclusion.2).map fun t => inside ++ [t.neg]

/-- Whether no query of a list can be satisfied. -/
def allUnsat (engine : Engine) (queries : List (List Term)) : Bool :=
  queries.all fun ts =>
    match engine.check ts with
    | .unsat => true
    | _ => false

/-- Whether a step does not lead out of the frame. -/
def contains (engine : Engine) (frame : Frame) (s : Step) : Bool :=
  allUnsat engine (frame.escapes s)

/-- Whether no step leads out of the frame. -/
def isClosed (engine : Engine) (frame : Frame) (steps : List Step) : Bool :=
  steps.all (frame.contains engine)

/-- Sets what is said about a relation. -/
def put (frame : Frame) (r : Symbol) (chains : List Chain) : Frame :=
  frame.map fun e => if e.1 == r then (r, some chains) else e

/-- What is left of a chain in view of a model. -/
def shorten (model : Model) (r : Symbol) (args : List Term) (chain : Chain) : Chain :=
  chain.dropWhile fun t => !(model.eval (at' r args t)).isVerum

/-- Makes room for what a model derives by a step. `templates` gives the chains of a relation about
which nothing has been derived before. -/
def widen (templates : Symbol → List Chain) (frame : Frame) (s : Step) (model : Model) : Frame :=
  let (r, args) := s.conclusion
  let chains := match frame.lookup r with
    | some (some chains) => chains
    | _ => templates r
  frame.put r ((chains.map (shorten model r args)).filter (!·.isEmpty))

/-- The frame with room for what a step derives, if it leads out of the frame. A relation about
which the engine does not know gets no conditions. -/
def advance? (engine : Engine) (templates : Symbol → List Chain) (frame : Frame) (s : Step) :
    Option Frame :=
  (frame.escapes s).findSome? fun ts =>
    match engine.check ts with
    | .unsat => none
    | .sat model => some (frame.widen templates s model)
    | .unknown => some (frame.put s.conclusion.1 [])

/-- Makes room until no step leads out of the frame, at most `fuel` times. -/
def saturate (engine : Engine) (templates : Symbol → List Chain) (steps : List Step) :
    Nat → Frame → Frame
  | 0, frame => frame
  | fuel + 1, frame =>
    match steps.findSome? (frame.advance? engine templates) with
    | none => frame
    | some frame => saturate engine templates steps fuel frame

/-- The number of times that room can be made: once for each relation, and once for each formula of
its chains. -/
def bound (templates : Symbol → List Chain) (relations : List Symbol) : Nat :=
  relations.foldl (fun n r => (templates r).foldl (fun n chain => n + chain.length) (n + 2)) 0

/-- Whether a formula follows from others. -/
def implies (engine : Engine) (ts : List Term) (t : Term) : Bool :=
  allUnsat engine [ts ++ [t.neg]]

/-- Puts those chains of the first list in front of `kept` whose conditions do not follow from the
other ones. The first list is in reverse order. -/
def needed (engine : Engine) (kept : List Chain) : List Chain → List Chain
  | [] => kept
  | chain :: rest =>
    if chain.head?.all (implies engine ((rest ++ kept).filterMap List.head?)) then
      needed engine kept rest
    else needed engine (chain :: kept) rest

/-- The frame without conditions that follow from others. -/
def prune (engine : Engine) (frame : Frame) : Frame :=
  frame.map fun (r, chains) => (r, chains.map fun chains => needed engine [] chains.reverse)

end Frame

end Horn
