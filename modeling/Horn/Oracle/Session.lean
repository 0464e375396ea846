import Horn.Instance.Expand
import Horn.Sample.Signature

/-!
# Oracle sessions

A session asks the logic engine about a growing and shrinking list of assertions. It keeps

* the assertions and the declared variables, one list of each for every open scope;
* predicate definitions, written at most once, in terms of which applications of predicates are
  asserted;
* the model of the last query, until the assertions change;
* the numbers of queries and of satisfiable ones.

`Session.scope` runs a computation in a scope of its own, which is closed again however the
computation ends.
-/

namespace Horn

/-- What belongs to one open scope. -/
structure Scope where
  declared : List Term
  assertions : List Term
  deriving Inhabited

/-- The state of a session. The innermost scope comes first, the base scope is always there. -/
structure Session where
  name : String
  /-- The time limit of queries in milliseconds. -/
  timeout : Option Int
  inner : List Scope
  base : Scope
  definitions : Option Instance
  model : Option Model
  checks : Nat
  satisfiable : Nat

namespace Session

/-- A new session. -/
def create (name : String) (timeout : Option Int) : Session :=
  ⟨name, timeout, [], default, none, none, 0, 0⟩

/-- All scopes, the innermost first. -/
def scopes (s : Session) : List Scope := s.inner ++ [s.base]

/-- All assertions, the oldest first. -/
def assertions (s : Session) : List Term := s.scopes.reverse.flatMap (·.assertions)

/-- The session with a change to its innermost scope. -/
def modifyTop (f : Scope → Scope) (s : Session) : Session :=
  match s.inner with
  | [] => { s with base := f s.base }
  | top :: rest => { s with inner := f top :: rest }

/-- The session without assertions, declarations, scopes and definitions. Its name, its time
limit and its statistics stay. -/
def reset (s : Session) : Session :=
  { s with inner := [], base := default, definitions := none, model := none }

/-! ### Declarations and definitions -/

/-- Whether a term is a constant: an application to nothing, or a literal. -/
def isConstant : Term → Bool
  | .lit _ => true
  | .fn _ as => as.isEmpty
  | _ => false

/-- Declares variables in the innermost scope, up to the first term that is no constant. -/
def declare (constants : List Term) : Act Session Unit :=
  constants.forM fun t => do
    if isConstant t then
      modify (modifyTop fun scope => { scope with declared := scope.declared ++ [t] })
    else throw (Fault.cannotDeclare (← get).name t)

/-- Whether a variable is declared in an open scope. -/
def isDeclared (s : Session) (t : Term) : Bool := s.scopes.any (·.declared.contains t)

/-- Takes the definitions of an instance as the background of applications. -/
def writeDefinitions (inst : Instance) : Act Session Unit := do
  let s ← get
  if s.definitions.isSome then throw (Fault.definitionsTwice s.name)
  set { s with definitions := some inst }
  let defined := (inst.preds.filter (·.definition.isSome)).map (·.name)
  Act.debug .oracle
    ("[" ++ s.name ++ "] " ++ toString defined.length ++ " background definition(s): "
      ++ ", ".intercalate defined)

/-! ### Assertions -/

/-- Asserts a formula in the innermost scope. -/
def assertTerm (t : Term) : Act Session Unit :=
  if t.isBool then
    -- The model of the last query is gone with any change.
    modify fun s => { modifyTop (fun scope =>
      { scope with assertions := scope.assertions ++ [t] }) s with model := none }
  else throw Fault.illSorted

/-- The arguments of an application under the original signature, as arguments under the current
one. -/
def project (session : String) (p : Predicate) (args : List Term) : Except Fault (List Term) :=
  if args.length = p.originalSorts.length then
    -- The positions have been checked when the predicate was made.
    .ok (p.positions.map fun i => (args[i]?).getD .verum)
  else .error (.originalArguments session p.name p.originalSorts.length args.length)

/-- The formula that asserting an application of a predicate amounts to under the definitions of
an instance. -/
def resolveApp (callable : Callable) (session : String) (inst : Instance) (pred : Int)
    (args : List Term) (original : Bool) : Except Fault Term := do
  let p ← inst.pred pred
  let args ← if original then project session p args else pure args
  match p.symbol.app? args with
  | some t => inst.expand t callable
  | none => throw Fault.illSorted

/-- Asserts an application of a predicate in terms of the definitions. -/
def assertApp (pred : Int) (args : List Term) (original : Bool) (callable : Callable := .any) :
    Act Session Unit := do
  let s ← get
  match s.definitions with
  | none => throw (Fault.definitionsMissing s.name)
  | some inst => assertTerm (← Act.ofExcept (resolveApp callable s.name inst pred args original))

/-! ### Scopes and queries -/

/-- Opens a scope. -/
def push : Act Session Unit :=
  modify fun s => { s with inner := default :: s.inner, model := none }

/-- Closes the innermost scope. -/
def pop : Act Session Unit := do
  let s ← get
  match s.inner with
  | [] => throw (Fault.popUnmatched s.name)
  | _ :: rest => set { s with inner := rest, model := none }

/-- Runs a computation in a scope of its own. -/
def scope {α : Type} (act : Act Session α) : Act Session α := do
  push
  Act.finally' act pop

/-- Whether the assertions are satisfiable. -/
def checkSat (engine : Engine) : Act Session Bool := do
  -- Queries that stay undecided count, too.
  modify fun s => { s with checks := s.checks + 1, model := none }
  let s ← get
  match engine.check s.assertions with
  | .unknown => throw (Fault.undecided s.name .engineUnknown)
  | .unsat => pure false
  | .sat m => do
    set { s with satisfiable := s.satisfiable + 1, model := some m }
    pure true

/-- The model of the last query. -/
def getModel : Act Session Model := do
  let s ← get
  match s.model with
  | some m => pure m
  | none => throw (Fault.modelMissing s.name .noModel)

end Session

end Horn
