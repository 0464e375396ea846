import Horn.Proofs.Oracle.Pool

/-!
# The two stacks of a session

A session keeps what belongs to a scope together, its assertions and its declared variables. A
solver knows about assertions only. It has a stack of its own, and the declarations are a second
stack beside it, with one level for each scope of the solver and one more for what is outside of all
scopes. `TwoStacks` is such a session: opening a scope changes one stack and then the other one,
closing a scope looks at the number of levels and then asks the solver, and nothing but the
operations keeps the stacks together.

* `Mirrors` relates a computation on a session to one on two stacks: both answer the same, and they
  end in a session and in its two stacks (`Session.apart`). Sequences mirror each other if their
  parts do.
* `mirrors_act` is the step lemma: every operation on two stacks mirrors the one on a session, also
  when it fails.
* `TwoStacks.afterAll_apart` and `TwoStacks.answers_apart` are the run lemmas for sequences of
  operations.
-/

namespace Horn

variable {α β : Type}

/-! ### Solvers -/

/-- A solver: the assertions of its open scopes, those of the innermost one first, the assertions
outside of all scopes, and the model of the last query. -/
structure Solver where
  frames : List (List Term)
  ground : List Term
  model : Option Model

namespace Solver

/-- All assertions, the oldest first. -/
def assertions (v : Solver) : List Term := (v.frames ++ [v.ground]).reverse.flatten

/-- Adds an assertion. -/
def add (t : Term) (v : Solver) : Solver :=
  match v.frames with
  | [] => { v with ground := v.ground ++ [t], model := none }
  | frame :: frames => { v with frames := (frame ++ [t]) :: frames, model := none }

/-- Opens a scope. -/
def push (v : Solver) : Solver := { v with frames := [] :: v.frames, model := none }

/-- Closes the innermost scope. A solver without open scopes refuses to. -/
def pop (v : Solver) : Except Fault Solver :=
  match v.frames with
  | [] => .error .outOfRange
  | _ :: frames => .ok { v with frames := frames, model := none }

end Solver

/-! ### Sessions on two stacks -/

/-- A session with a solver and, beside it, the variables that have been declared at each level, the
current level first. -/
structure TwoStacks where
  name : String
  timeout : Option Int
  solver : Solver
  levels : List (List Term)
  definitions : Option Instance
  checks : Nat
  satisfiable : Nat

namespace TwoStacks

/-- A new session: one level, and no scope of the solver. -/
def create (name : String) (timeout : Option Int) : TwoStacks :=
  ⟨name, timeout, ⟨[], [], none⟩, [[]], none, 0, 0⟩

def declare (constants : List Term) : Act TwoStacks Unit :=
  constants.forM fun t => do
    let s ← get
    if Session.isConstant t then
      match s.levels with
      | [] => throw Fault.outOfRange
      | level :: levels => set { s with levels := (level ++ [t]) :: levels }
    else throw (Fault.cannotDeclare s.name t)

def isDeclared (s : TwoStacks) (t : Term) : Bool := s.levels.any (·.contains t)

def writeDefinitions (inst : Instance) : Act TwoStacks Unit := do
  let s ← get
  if s.definitions.isSome then throw (Fault.definitionsTwice s.name)
  set { s with definitions := some inst }
  let defined := (inst.preds.filter (·.definition.isSome)).map (·.name)
  Act.debug .oracle
    ("[" ++ s.name ++ "] " ++ toString defined.length ++ " background definition(s): "
      ++ ", ".intercalate defined)

def assertTerm (t : Term) : Act TwoStacks Unit :=
  if t.isBool then modify fun s => { s with solver := s.solver.add t }
  else throw Fault.illSorted

def assertApp (pred : Int) (args : List Term) (original : Bool) (callable : Callable) :
    Act TwoStacks Unit := do
  let s ← get
  match s.definitions with
  | none => throw (Fault.definitionsMissing s.name)
  | some inst =>
    assertTerm (← Act.ofExcept (Session.resolveApp callable s.name inst pred args original))

/-- Opens a scope of the solver, and then a level. -/
def push : Act TwoStacks Unit := do
  modify fun s => { s with solver := s.solver.push }
  modify fun s => { s with levels := [] :: s.levels }

/-- Closes the innermost scope of the solver, and then a level. Only the number of levels tells
whether there is one to close. -/
def pop : Act TwoStacks Unit := do
  let s ← get
  if s.levels.length = 1 then throw (Fault.popUnmatched s.name)
  let solver ← Act.ofExcept s.solver.pop
  set { s with solver := solver, levels := s.levels.tail }

def scope (act : Act TwoStacks α) : Act TwoStacks α := do
  push
  Act.finally' act pop

def checkSat (engine : Engine) : Act TwoStacks Bool := do
  modify fun s => { s with checks := s.checks + 1, solver := { s.solver with model := none } }
  let s ← get
  match engine.check s.solver.assertions with
  | .unknown => throw (Fault.undecided s.name .engineUnknown)
  | .unsat => pure false
  | .sat m => do
    set { s with satisfiable := s.satisfiable + 1, solver := { s.solver with model := some m } }
    pure true

def getModel : Act TwoStacks Model := do
  let s ← get
  match s.solver.model with
  | some m => pure m
  | none => throw (Fault.modelMissing s.name .noModel)

def reset (s : TwoStacks) : TwoStacks :=
  { s with solver := ⟨[], [], none⟩, levels := [[]], definitions := none }

mutual

/-- Performs an operation on two stacks. -/
def act (engines : Option Int → Engine) : Session.Operation → Act TwoStacks Session.Answer
  | .declare constants => do
    declare constants
    pure .done
  | .isDeclared t => do pure (.truth ((← get).isDeclared t))
  | .writeDefinitions inst => do
    writeDefinitions inst
    pure .done
  | .assertTerm t => do
    assertTerm t
    pure .done
  | .assertApp pred args original => do
    assertApp pred args original (engines (← get).timeout).callable
    pure .done
  | .push => do
    push
    pure .done
  | .pop => do
    pop
    pure .done
  | .scope body => do
    scope (actAll engines body)
    pure .done
  | .checkSat => do pure (.truth (← checkSat (engines (← get).timeout)))
  | .getModel => do pure (.model (← getModel))
  | .reset => do
    modify reset
    pure .done

/-- Performs operations one after the other, up to the first one that fails. -/
def actAll (engines : Option Int → Engine) : List Session.Operation → Act TwoStacks Unit
  | [] => pure ()
  | op :: ops => do
    let _ ← act engines op
    actAll engines ops

end

/-- The two stacks after some operations, whether or not they fail. -/
def afterAll (engines : Option Int → Engine) (s : TwoStacks) (ops : List Session.Operation) :
    TwoStacks := ops.foldl (fun s op => ((act engines op).exec s).2.1) s

/-- What some operations answer, one after the other. -/
def answers (engines : Option Int → Engine) (s : TwoStacks) :
    List Session.Operation → List (Except Fault Session.Answer)
  | [] => []
  | op :: ops => ((act engines op).exec s).1 :: answers engines ((act engines op).exec s).2.1 ops

end TwoStacks

/-! ### The two stacks of a session -/

/-- The two stacks of a session. -/
def Session.apart (s : Session) : TwoStacks :=
  ⟨s.name, s.timeout, ⟨s.inner.map (·.assertions), s.base.assertions, s.model⟩,
    s.scopes.map (·.declared), s.definitions, s.checks, s.satisfiable⟩

namespace Session

/-- The levels are one more than the scopes of the solver. -/
theorem length_levels (s : Session) :
    s.apart.levels.length = s.apart.solver.frames.length + 1 := by
  show ((s.inner ++ [s.base]).map _).length = (s.inner.map _).length + 1
  rw [List.length_map, List.length_map, List.length_append, List.length_singleton]

theorem assertions_apart (s : Session) : s.apart.solver.assertions = s.assertions := by
  show (s.inner.map (·.assertions) ++ [s.base.assertions]).reverse.flatten =
    (s.inner ++ [s.base]).reverse.flatMap (·.assertions)
  rw [List.flatMap_def, List.map_reverse, List.map_append, List.map_singleton]

theorem isDeclared_apart (s : Session) (t : Term) : s.apart.isDeclared t = s.isDeclared t :=
  List.any_map

end Session

/-! ### Computations that mirror each other -/

/-- The computation on two stacks does to the stacks of a session what the other one does to the
session, and it answers and records the same. -/
def Mirrors (act : Act Session α) (act' : Act TwoStacks α) : Prop :=
  ∀ (s : Session) (log : Log), act'.runFrom (s.apart, log) =
    ((act.runFrom (s, log)).1, (act.runFrom (s, log)).2.1.apart, (act.runFrom (s, log)).2.2)

theorem mirrors_ofExcept (r : Except Fault α) : Mirrors (Act.ofExcept r) (Act.ofExcept r) :=
  fun _ _ => rfl

theorem mirrors_pure (a : α) : Mirrors (pure a) (pure a) := mirrors_ofExcept (.ok a)

theorem mirrors_throw (e : Fault) : Mirrors (throw e : Act Session α) (throw e) :=
  mirrors_ofExcept (.error e)

/-- Computations that read the state. -/
theorem mirrors_get_bind {next : Session → Act Session α} {next' : TwoStacks → Act TwoStacks α}
    (h : ∀ s, Mirrors (next s) (next' s.apart)) : Mirrors (get >>= next) (get >>= next') :=
  fun s log => h s s log

namespace Mirrors

variable {act : Act Session α} {act' : Act TwoStacks α}

/-- Sequences mirror each other if their parts do. -/
theorem bind {next : α → Act Session β} {next' : α → Act TwoStacks β} (h : Mirrors act act')
    (hnext : ∀ a, Mirrors (next a) (next' a)) : Mirrors (act >>= next) (act' >>= next') := by
  intro s log
  rw [Act.runFrom_bind, Act.runFrom_bind, h s log]
  rcases act.runFrom (s, log) with ⟨_ | a, s₁, log₁⟩
  · rfl
  · exact hnext a s₁ log₁

theorem attempt (h : Mirrors act act') : Mirrors (Act.attempt act) (Act.attempt act') := by
  intro s log
  rw [Act.runFrom_attempt, Act.runFrom_attempt, h s log]

/-- What is run at the end is run in the mirror, too, also after a failure. -/
theorem finally' {after : Act Session Unit} {after' : Act TwoStacks Unit} (h : Mirrors act act')
    (hafter : Mirrors after after') : Mirrors (Act.finally' act after) (Act.finally' act' after') :=
  h.attempt.bind fun r => hafter.bind fun _ => mirrors_ofExcept r

end Mirrors

/-! ### Operations -/

theorem mirrors_declare (constants : List Term) :
    Mirrors (Session.declare constants) (TwoStacks.declare constants) := by
  induction constants with
  | nil => exact mirrors_pure _
  | cons t constants ih =>
    refine Mirrors.bind (fun s log => ?_) fun _ => ih
    dsimp only
    by_cases ht : Session.isConstant t
    · -- There is always a level, that of the base scope at least.
      rw [if_pos ht, Act.runFrom_bind_of_ok (Act.runFrom_get _)]
      dsimp only
      rw [if_pos ht]
      obtain ⟨name, timeout, _ | ⟨top, inner⟩, base, definitions, model, checks, satisfiable⟩ := s
      · rfl
      · rfl
    · rw [if_neg ht, Act.runFrom_bind_of_ok (Act.runFrom_get _)]
      dsimp only
      rw [if_neg ht]
      rfl

theorem mirrors_writeDefinitions (inst : Instance) :
    Mirrors (Session.writeDefinitions inst) (TwoStacks.writeDefinitions inst) := by
  intro s log
  unfold Session.writeDefinitions TwoStacks.writeDefinitions
  rw [Act.runFrom_bind_of_ok (Act.runFrom_get _), Act.runFrom_bind_of_ok (Act.runFrom_get _)]
  dsimp only
  show (if s.definitions.isSome then _ else _ : Act TwoStacks Unit).runFrom _ = _
  split
  · rfl
  · rfl

theorem mirrors_assertTerm (t : Term) :
    Mirrors (Session.assertTerm t) (TwoStacks.assertTerm t) := by
  unfold Session.assertTerm TwoStacks.assertTerm
  split
  · rintro ⟨name, timeout, _ | ⟨top, inner⟩, base, definitions, model, checks, satisfiable⟩ log
    · rfl
    · rfl
  · exact mirrors_throw _

theorem mirrors_assertApp (pred : Int) (args : List Term) (original : Bool)
    (callable : Callable) : Mirrors (Session.assertApp pred args original callable)
      (TwoStacks.assertApp pred args original callable) := by
  apply mirrors_get_bind
  intro s
  show Mirrors _ (match s.definitions with | none => _ | some inst => _)
  cases s.definitions with
  | none => exact mirrors_throw _
  | some inst => exact (mirrors_ofExcept _).bind mirrors_assertTerm

theorem mirrors_push : Mirrors Session.push TwoStacks.push := fun _ _ => rfl

/-- The number of levels tells whether the solver has a scope to close. -/
theorem mirrors_pop : Mirrors Session.pop TwoStacks.pop := by
  rintro ⟨name, timeout, _ | ⟨top, inner⟩, base, definitions, model, checks, satisfiable⟩ log
  · rfl
  -- With a scope open there are two levels at least, so the number of levels does not refuse.
  · have hlevels : ¬((top :: inner ++ [base]).map (·.declared)).length = 1 := by
      rw [List.length_map, List.length_append, List.length_cons, List.length_singleton]
      omega
    unfold TwoStacks.pop
    rw [Act.runFrom_bind_of_ok (Act.runFrom_get _)]
    dsimp only
    show (if ((top :: inner ++ [base]).map (·.declared)).length = 1 then _ else _ :
      Act TwoStacks Unit).runFrom _ = _
    rw [if_neg hlevels]
    rfl

theorem Mirrors.scope {act : Act Session α} {act' : Act TwoStacks α} (h : Mirrors act act') :
    Mirrors (Session.scope act) (TwoStacks.scope act') :=
  mirrors_push.bind fun _ => h.finally' mirrors_pop

theorem mirrors_checkSat (engine : Engine) :
    Mirrors (Session.checkSat engine) (TwoStacks.checkSat engine) := by
  intro s log
  unfold Session.checkSat TwoStacks.checkSat
  rw [Act.runFrom_bind_of_ok (Act.runFrom_modify _ _), Act.runFrom_bind_of_ok (Act.runFrom_get _),
    Act.runFrom_bind_of_ok (Act.runFrom_modify _ _), Act.runFrom_bind_of_ok (Act.runFrom_get _)]
  dsimp only
  -- The engine is asked about one list of assertions.
  have hmirror : Solver.assertions { s.apart.solver with model := none } = s.assertions :=
    s.assertions_apart
  have hsession : Session.assertions { s with checks := s.checks + 1, model := none } =
      s.assertions := rfl
  rw [hmirror, hsession]
  cases engine.check s.assertions with
  | unknown => rfl
  | unsat => rfl
  | sat m => rfl

theorem mirrors_getModel : Mirrors Session.getModel TwoStacks.getModel := by
  apply mirrors_get_bind
  intro s
  show Mirrors _ (match s.model with | some m => _ | none => _)
  cases s.model with
  | none => exact mirrors_throw _
  | some m => exact mirrors_pure m

mutual

/-- **Every operation on two stacks mirrors the one on a session,** however it ends. -/
theorem mirrors_act (engines : Option Int → Engine) :
    ∀ op : Session.Operation, Mirrors (op.act engines) (TwoStacks.act engines op)
  | .declare constants => (mirrors_declare constants).bind fun _ => mirrors_pure _
  | .isDeclared t => mirrors_get_bind fun s => by
    rw [s.isDeclared_apart t]
    exact mirrors_pure _
  | .writeDefinitions inst => (mirrors_writeDefinitions inst).bind fun _ => mirrors_pure _
  | .assertTerm t => (mirrors_assertTerm t).bind fun _ => mirrors_pure _
  | .assertApp pred args original => mirrors_get_bind fun _ =>
    (mirrors_assertApp pred args original _).bind fun _ => mirrors_pure _
  | .push => mirrors_push.bind fun _ => mirrors_pure _
  | .pop => mirrors_pop.bind fun _ => mirrors_pure _
  | .scope body => (mirrors_actAll engines body).scope.bind fun _ => mirrors_pure _
  | .checkSat => mirrors_get_bind fun s =>
    (mirrors_checkSat (engines s.timeout)).bind fun _ => mirrors_pure _
  | .getModel => mirrors_getModel.bind fun _ => mirrors_pure _
  | .reset => fun _ _ => rfl

theorem mirrors_actAll (engines : Option Int → Engine) :
    ∀ ops : List Session.Operation,
      Mirrors (Session.Operation.actAll engines ops) (TwoStacks.actAll engines ops)
  | [] => mirrors_pure _
  | op :: ops => (mirrors_act engines op).bind fun _ => mirrors_actAll engines ops

end

/-! ### Sequences of operations -/

namespace TwoStacks

variable (engines : Option Int → Engine)

theorem exec_apart (s : Session) (op : Session.Operation) :
    ((act engines op).exec s.apart).1 = ((op.act engines).exec s).1 ∧
      ((act engines op).exec s.apart).2.1 = ((op.act engines).exec s).2.1.apart := by
  rw [Act.exec_eq, Act.exec_eq, mirrors_act engines op s []]
  exact ⟨rfl, rfl⟩

/-- **The stacks stay together.** After any operations the two stacks are those of the session. -/
theorem afterAll_apart (s : Session) (ops : List Session.Operation) :
    afterAll engines s.apart ops = (Session.afterAll engines s ops).apart := by
  induction ops generalizing s with
  | nil => rfl
  | cons op ops ih =>
    show afterAll engines ((act engines op).exec s.apart).2.1 ops = _
    rw [(exec_apart engines s op).2]
    exact ih _

/-- Operations on two stacks answer as those on the session. -/
theorem answers_apart (s : Session) (ops : List Session.Operation) :
    answers engines s.apart ops = Session.answers engines s ops := by
  induction ops generalizing s with
  | nil => rfl
  | cons op ops ih =>
    rw [answers, Session.answers, (exec_apart engines s op).1, (exec_apart engines s op).2, ih]

end TwoStacks

end Horn
