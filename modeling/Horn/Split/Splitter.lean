import Horn.Split.Order
import Horn.Split.Preprocess

/-!
# The splitter

A splitter produces one sub-instance for each negative clause of an instance, in the order of
`Horn.Split.Order`, the last clause of the list first. Where there is nothing to split, because
splitting is off or there are fewer than two negative clauses, it produces the instance itself,
once.

While it is open the splitter holds the instance, so that nobody changes it in place.

A clause is taken off the list before it is preprocessed, and counts as isolated once that has
succeeded.
-/

namespace Horn

/-- Settings of the split loop. -/
structure SplitConfig where
  /-- Split the instance on its negative clauses. -/
  enabled : Bool
  /-- Order the negative clauses by connectivity. -/
  sort : Bool
  /-- Run the learner on each sub-instance. -/
  infer : Bool
  /-- Report every step at level `info`. -/
  step : Bool
  deriving DecidableEq, Inhabited

/-- The settings that hold unless others are given. -/
def SplitConfig.default : SplitConfig := ⟨true, true, true, false⟩

/-- How far a splitter has come. -/
inductive Progress where
  /-- The clauses still to isolate, the next one last, and their number at the start. -/
  | active (pending : List Nat) (total : Nat)
  /-- No splitting: whether the instance has been produced. -/
  | inactive (fired : Bool)
  deriving Inhabited

/-- A splitter with a preprocessor whose states are in `κ`. -/
structure Splitter (κ : Type) where
  top : Instance
  isOpen : Bool
  progress : Progress
  /-- The clauses that have been isolated, in ascending order. -/
  isolated : List Nat
  total : Nat
  preprocessor : Visitor κ

/-- The next clause, the number of clauses handled before it, and the number of all. -/
structure SplitInfo where
  clause : Nat
  handled : Nat
  total : Nat
  deriving DecidableEq, Inhabited

namespace Splitter

variable {κ : Type}

/-- How a splitter starts on an instance. -/
def start (inst : Instance) (config : SplitConfig) : Progress :=
  if config.enabled && decide (1 < inst.negClauses.length) then
    .active (inst.splitOrder config.sort) (inst.splitOrder config.sort).length
  else .inactive false

/-- The number of parts that a splitter announces. -/
def Progress.announced : Progress → Nat
  | .active _ total => total
  | .inactive _ => 1

/-- A list of clause handles as text. -/
def handlesText (clauses : List Nat) : String :=
  ", ".intercalate (clauses.map fun c => "#" ++ toString c)

/-- A new splitter, which holds the instance. -/
def create (inst : Instance) (config : SplitConfig) (preprocessor : κ) : Splitter κ :=
  let progress := start inst config
  ⟨inst.retain, true, progress, [], Progress.announced progress, ⟨preprocessor, 0⟩⟩

/-- Reports the order of the splits. -/
def announce : Act (Splitter κ) Unit := do
  match (← get).progress with
  | .active pending _ =>
    Act.debug .splitting ("split order (last first): " ++ handlesText pending)
  | .inactive _ => pure ()

/-- Lets the instance go; a second time has no effect. -/
def close : Act (Splitter κ) Unit := do
  let s ← get
  if s.isOpen then
    let top ← Act.ofExcept s.top.release
    set { s with top := top, isOpen := false }

/-- The next clause to split on. -/
def peek (s : Splitter κ) : Option SplitInfo :=
  match s.progress with
  | .active pending total =>
    pending.getLast?.map fun c => ⟨c, total - pending.length, total⟩
  | .inactive _ => none

/-- The top-level instance, while the splitter holds it. -/
def held? (s : Splitter κ) : Option Instance := if s.isOpen then some s.top else none

/-- Puts an index into an ascending list. -/
def insertIndex (i : Nat) : List Nat → List Nat
  | [] => [i]
  | j :: rest => if i < j then i :: j :: rest else if i = j then j :: rest
    else j :: insertIndex i rest

/-- Runs the preprocessor on a clause. It may take and release holds on the top-level instance; its
failure becomes a failure of splitting on the clause. -/
def reduce (p : Preprocessor κ) (clause : Nat) : Act (Splitter κ) Reduced := do
  let s ← get
  let r ← Act.zoom (·.preprocessor)
    (fun s v => { s with
      preprocessor := v
      top := s.top.rehold s.preprocessor.holds.last v.holds.last })
    (Act.attempt (p.reduce s.held? clause s.isolated))
  match r with
  | .ok reduced => pure reduced
  | .error cause => throw (Fault.splitting clause cause)

/-- Produces the next part; `none` once everything has been produced. -/
def advance (p : Preprocessor κ) : Act (Splitter κ) (Option Reduced) := do
  let s ← get
  match s.progress with
  | .inactive true => pure none
  | .inactive false =>
    set { s with progress := .inactive true }
    -- Without a hold on the instance there is nothing to hand over.
    pure (s.held?.map fun _ => .whole)
  | .active pending total =>
    match pending.getLast? with
    | none => pure none
    | some clause =>
      -- The clause is no longer pending, even if the preprocessor fails on it.
      set { s with progress := .active pending.dropLast total }
      let reduced ← reduce p clause
      modify fun s => { s with isolated := insertIndex clause s.isolated }
      Act.debugTimed .splitting ("sub-preprocessing on #" ++ toString clause)
      pure (some reduced)

end Splitter

end Horn
