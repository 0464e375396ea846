import Horn.Oracle.Session

/-!
# A pool of sessions

Sessions are reused: `Pool.spawn` takes the session that was given back last, or makes a new one,
and `Pool.giveBack` resets a session before it can be taken again. `Pool.session` runs a
computation with a session that is given back however the computation ends.

Sessions are known by their number in the pool's table.
-/

namespace Horn

/-- Sessions, and the numbers of those that are free, the last one being taken next. -/
structure Pool where
  timeout : Option Int
  sessions : List Session
  free : List Nat

namespace Pool

/-- A pool without sessions. -/
def empty (timeout : Option Int) : Pool := ⟨timeout, [], []⟩

/-- Adds a session to the table without putting it at anybody's disposal. -/
def insert (s : Session) : Act Pool Nat := do
  let p ← get
  set { p with sessions := p.sessions ++ [s] }
  pure p.sessions.length

/-- The session with a number. -/
def get? (p : Pool) (i : Nat) : Option Session := p.sessions[i]?

/-- Runs a computation on the session with a number. -/
def onSession {α : Type} (i : Nat) (act : Act Session α) : Act Pool α :=
  Act.zoom (fun p => (p.get? i).getD (Session.create "" none))
    (fun p s => { p with sessions := p.sessions.set i s }) act

/-- Takes a session for the given name. -/
def spawn (name : String) : Act Pool Nat := do
  let p ← get
  match p.free.getLast? with
  | some i =>
    set { p with free := p.free.dropLast }
    onSession i (modify fun s => { s with name := name })
    pure i
  | none => insert (Session.create name p.timeout)

/-- Resets a session and makes it free. -/
def giveBack (i : Nat) : Act Pool Unit := do
  onSession i (modify Session.reset)
  modify fun p => { p with free := p.free ++ [i] }

/-- Runs a computation with a session from the pool. -/
def session {α : Type} (name : String) (act : Nat → Act Pool α) : Act Pool α := do
  let i ← spawn name
  Act.finally' (act i) (giveBack i)

end Pool

end Horn
