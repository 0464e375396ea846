import Horn.Oracle.Pool
import Horn.Proofs.Coupled
import Mathlib.Data.List.Induction
import Mathlib.Data.List.Nodup

/-!
# What a pool hands out

A session from a pool may have been used before, and may have been left in any state: with open
scopes, contradictory assertions and definitions. Nobody can tell.

Uses of a pool begin and end in a nested way, and in between anything is done with the sessions in
use (`Pool.Event`). `Pool.after` is the pool after such a history, with the uses that are under way
and what was answered in each of them.

* `Session.oblivious_act`: no operation depends on the statistics of a session. This is the coupling
  lemma between a session from the pool and a new one.
* `Pool.Tight` is the invariant: free sessions are like new ones, and a session in use is like one
  that is new at the beginning of the use. `Tight.next` is the step lemma, `tight_after` the run
  lemma.
* `Pool.indistinguishable` is the result on histories, for engines whose answers depend on the
  assertions and the time limit only.
-/

namespace Horn

variable {α β : Type}

namespace Session

/-! ### Sessions with the same contents -/

/-- Two sessions with a time limit that differ in the statistics at most. -/
def Twin (timeout : Option Int) (s s' : Session) : Prop :=
  s.timeout = timeout ∧
    ∃ checks satisfiable, s' = { s with checks := checks, satisfiable := satisfiable }

/-- From sessions that differ in the statistics at most the computation ends alike. -/
def Oblivious (act : Act Session α) : Prop :=
  ∀ (timeout : Option Int) (s s' : Session) (log log' : Log), Twin timeout s s' →
    Act.Alike (Twin timeout) (fun a a' s s' => a = a' ∧ Twin timeout s s')
      (act.runFrom (s, log)) (act.runFrom (s', log'))

theorem oblivious_ofExcept (r : Except Fault α) : Oblivious (Act.ofExcept r) :=
  fun _ _ _ _ _ h => Act.alike_ofExcept h fun _ _ => ⟨rfl, h⟩

theorem oblivious_pure (a : α) : Oblivious (pure a) := oblivious_ofExcept (.ok a)

theorem oblivious_throw (e : Fault) : Oblivious (throw e : Act Session α) :=
  oblivious_ofExcept (.error e)

/-- A change that neither reads nor writes the statistics. -/
theorem oblivious_modify {f : Session → Session} (htimeout : ∀ s, (f s).timeout = s.timeout)
    (hf : ∀ s checks satisfiable, ∃ checks' satisfiable',
      f { s with checks := checks, satisfiable := satisfiable } =
        { f s with checks := checks', satisfiable := satisfiable' }) :
    Oblivious (modify f) := by
  rintro timeout s s' log log' ⟨hs, checks, satisfiable, rfl⟩
  exact .done ⟨rfl, (htimeout s).trans hs, hf s checks satisfiable⟩

theorem Oblivious.bind {act : Act Session α} {next : α → Act Session β} (h : Oblivious act)
    (hnext : ∀ a, Oblivious (next a)) : Oblivious (act >>= next) := by
  intro timeout s s' log log' hs
  refine (h timeout s s' log log' hs).bind fun {a a' w w'} hQ => ?_
  obtain ⟨rfl, hw⟩ := hQ
  exact hnext a timeout w.1 w'.1 w.2 w'.2 hw

/-- A computation that reads the session. It may look at all but the statistics. -/
theorem oblivious_get_bind {next : Session → Act Session α} (hnext : ∀ s, Oblivious (next s))
    (hread : ∀ s checks satisfiable,
      next { s with checks := checks, satisfiable := satisfiable } = next s) :
    Oblivious (get >>= next) := by
  rintro timeout s s' log log' ⟨hs, checks, satisfiable, rfl⟩
  rw [Act.runFrom_bind_of_ok (Act.runFrom_get _), Act.runFrom_bind_of_ok (Act.runFrom_get _)]
  dsimp only
  rw [hread s checks satisfiable]
  exact hnext s timeout _ _ log log' ⟨hs, checks, satisfiable, rfl⟩

/-- The outcome as a value is the same value. -/
theorem Oblivious.attempt {act : Act Session α} (h : Oblivious act) :
    Oblivious (Act.attempt act) := by
  intro timeout s s' log log' hs
  rw [Act.runFrom_attempt, Act.runFrom_attempt]
  have hrun := h timeout s s' log log' hs
  generalize act.runFrom (s, log) = x, act.runFrom (s', log') = x' at hrun
  cases hrun with
  | failed hE => exact .done ⟨rfl, hE⟩
  | done hQ => exact .done ⟨congrArg Except.ok hQ.1, hQ.2⟩

/-- What is run at the end is run alike, too. -/
theorem Oblivious.finally' {act : Act Session α} {after : Act Session Unit} (h : Oblivious act)
    (hafter : Oblivious after) : Oblivious (Act.finally' act after) :=
  h.attempt.bind fun r => hafter.bind fun _ => oblivious_ofExcept r

/-! ### Operations -/

/-- What can be done with a session. A scope with its operations ends at the first one that fails.
-/
inductive Operation where
  | declare (constants : List Term)
  | isDeclared (t : Term)
  | writeDefinitions (inst : Instance)
  | assertTerm (t : Term)
  | assertApp (pred : Int) (args : List Term) (original : Bool)
  | push
  | pop
  | scope (body : List Operation)
  | checkSat
  | getModel
  | reset

/-- What an operation answers if it succeeds. -/
inductive Answer where
  | done
  | truth (b : Bool)
  | model (m : Model)

mutual

/-- Performs an operation. The answers of the engine may depend on the time limit. -/
def Operation.act (engines : Option Int → Engine) : Operation → Act Session Answer
  | .declare constants => do
    Session.declare constants
    pure .done
  | .isDeclared t => do pure (.truth ((← get).isDeclared t))
  | .writeDefinitions inst => do
    Session.writeDefinitions inst
    pure .done
  | .assertTerm t => do
    Session.assertTerm t
    pure .done
  | .assertApp pred args original => do
    Session.assertApp pred args original (engines (← get).timeout).callable
    pure .done
  | .push => do
    Session.push
    pure .done
  | .pop => do
    Session.pop
    pure .done
  | .scope body => do
    Session.scope (Operation.actAll engines body)
    pure .done
  | .checkSat => do pure (.truth (← Session.checkSat (engines (← get).timeout)))
  | .getModel => do pure (.model (← Session.getModel))
  | .reset => do
    modify Session.reset
    pure .done

/-- Performs operations one after the other, up to the first one that fails. -/
def Operation.actAll (engines : Option Int → Engine) : List Operation → Act Session Unit
  | [] => pure ()
  | op :: ops => do
    let _ ← Operation.act engines op
    Operation.actAll engines ops

end

theorem oblivious_modifyTop (f : Scope → Scope) : Oblivious (modify (modifyTop f)) := by
  refine oblivious_modify (fun s => ?_) fun s checks satisfiable => ⟨checks, satisfiable, ?_⟩
  · unfold modifyTop
    split <;> rfl
  · obtain ⟨name, timeout, inner, base, definitions, model, _, _⟩ := s
    cases inner <;> rfl

theorem oblivious_declare (constants : List Term) : Oblivious (declare constants) := by
  induction constants with
  | nil => exact oblivious_pure _
  | cons t constants ih =>
    refine Oblivious.bind ?_ fun _ => ih
    dsimp only
    split
    · exact oblivious_modifyTop _
    · exact oblivious_get_bind (fun s => oblivious_throw _) fun _ _ _ => rfl

theorem oblivious_writeDefinitions (inst : Instance) : Oblivious (writeDefinitions inst) := by
  rintro timeout s s' log log' ⟨hs, checks, satisfiable, rfl⟩
  unfold writeDefinitions
  rw [Act.runFrom_bind_of_ok (Act.runFrom_get _), Act.runFrom_bind_of_ok (Act.runFrom_get _)]
  dsimp only
  split
  · exact .failed ⟨hs, checks, satisfiable, rfl⟩
  · exact .done ⟨rfl, hs, checks, satisfiable, rfl⟩

theorem oblivious_assertTerm (t : Term) : Oblivious (assertTerm t) := by
  unfold assertTerm
  split
  · refine oblivious_modify (fun s => ?_) fun s checks satisfiable => ⟨checks, satisfiable, ?_⟩
    · unfold modifyTop
      split <;> rfl
    · obtain ⟨name, timeout, inner, base, definitions, model, _, _⟩ := s
      cases inner <;> rfl
  · exact oblivious_throw _

theorem oblivious_assertApp (pred : Int) (args : List Term) (original : Bool)
    (callable : Callable) : Oblivious (assertApp pred args original callable) := by
  refine oblivious_get_bind (fun s => ?_) fun _ _ _ => rfl
  split
  · exact oblivious_throw _
  · exact (oblivious_ofExcept _).bind oblivious_assertTerm

theorem oblivious_push : Oblivious push :=
  oblivious_modify (fun _ => rfl) fun _ checks satisfiable => ⟨checks, satisfiable, rfl⟩

theorem oblivious_pop : Oblivious pop := by
  rintro timeout s s' log log' ⟨hs, checks, satisfiable, rfl⟩
  unfold pop
  rw [Act.runFrom_bind_of_ok (Act.runFrom_get _), Act.runFrom_bind_of_ok (Act.runFrom_get _)]
  dsimp only
  split
  · exact .failed ⟨hs, checks, satisfiable, rfl⟩
  · exact .done ⟨rfl, hs, checks, satisfiable, rfl⟩

theorem Oblivious.scope {act : Act Session α} (h : Oblivious act) : Oblivious (scope act) :=
  oblivious_push.bind fun _ => h.finally' oblivious_pop

/-- A query counts, but its answer does not depend on the counts. -/
theorem oblivious_checkSat (engine : Engine) : Oblivious (checkSat engine) := by
  rintro timeout s s' log log' ⟨hs, checks, satisfiable, rfl⟩
  unfold checkSat
  rw [Act.runFrom_bind_of_ok (Act.runFrom_modify _ _),
    Act.runFrom_bind_of_ok (Act.runFrom_modify _ _),
    Act.runFrom_bind_of_ok (Act.runFrom_get _), Act.runFrom_bind_of_ok (Act.runFrom_get _)]
  -- The engine is asked about the assertions, in which neither the model nor the counts occur.
  have hassertions : ∀ checks satisfiable, Session.assertions
      { s with model := none, checks := checks, satisfiable := satisfiable } = s.assertions :=
    fun _ _ => rfl
  dsimp only
  rw [hassertions, hassertions]
  cases engine.check s.assertions with
  | unknown => exact .failed ⟨hs, _, _, rfl⟩
  | unsat => exact .done ⟨rfl, hs, _, _, rfl⟩
  | sat m => exact .done ⟨rfl, hs, _, _, rfl⟩

theorem oblivious_getModel : Oblivious getModel := by
  refine oblivious_get_bind (fun s => ?_) fun _ _ _ => rfl
  split
  · exact oblivious_pure _
  · exact oblivious_throw _

theorem oblivious_reset : Oblivious (modify reset) :=
  oblivious_modify (fun _ => rfl) fun _ checks satisfiable => ⟨checks, satisfiable, rfl⟩

mutual

/-- **No operation depends on the statistics.** -/
theorem oblivious_act (engines : Option Int → Engine) :
    ∀ op : Operation, Oblivious (op.act engines)
  | .declare constants => (oblivious_declare constants).bind fun _ => oblivious_pure _
  | .isDeclared _ => oblivious_get_bind (fun _ => oblivious_pure _) fun _ _ _ => rfl
  | .writeDefinitions inst => (oblivious_writeDefinitions inst).bind fun _ => oblivious_pure _
  | .assertTerm t => (oblivious_assertTerm t).bind fun _ => oblivious_pure _
  | .assertApp pred args original => oblivious_get_bind
    (fun _ => (oblivious_assertApp pred args original _).bind fun _ => oblivious_pure _)
    fun _ _ _ => rfl
  | .push => oblivious_push.bind fun _ => oblivious_pure _
  | .pop => oblivious_pop.bind fun _ => oblivious_pure _
  | .scope body => (oblivious_actAll engines body).scope.bind fun _ => oblivious_pure _
  | .checkSat => oblivious_get_bind
    (fun s => (oblivious_checkSat (engines s.timeout)).bind fun _ => oblivious_pure _)
    fun _ _ _ => rfl
  | .getModel => oblivious_getModel.bind fun _ => oblivious_pure _
  | .reset => oblivious_reset.bind fun _ => oblivious_pure _

theorem oblivious_actAll (engines : Option Int → Engine) :
    ∀ ops : List Operation, Oblivious (Operation.actAll engines ops)
  | [] => oblivious_pure _
  | op :: ops => (oblivious_act engines op).bind fun _ => oblivious_actAll engines ops

end

/-! ### Sequences of operations -/

/-- The session after some operations, whether or not they fail. -/
def afterAll (engines : Option Int → Engine) (s : Session) (ops : List Operation) : Session :=
  ops.foldl (fun s op => ((op.act engines).exec s).2.1) s

/-- What some operations answer, one after the other. -/
def answers (engines : Option Int → Engine) (s : Session) :
    List Operation → List (Except Fault Answer)
  | [] => []
  | op :: ops => ((op.act engines).exec s).1 :: answers engines ((op.act engines).exec s).2.1 ops

theorem afterAll_concat (engines : Option Int → Engine) (s : Session) (ops : List Operation)
    (op : Operation) : afterAll engines s (ops ++ [op]) =
      ((op.act engines).exec (afterAll engines s ops)).2.1 := List.foldl_append

theorem answers_concat (engines : Option Int → Engine) (s : Session) (ops : List Operation)
    (op : Operation) : answers engines s (ops ++ [op]) =
      answers engines s ops ++ [((op.act engines).exec (afterAll engines s ops)).1] := by
  induction ops generalizing s with
  | nil => rfl
  | cons op' ops ih =>
    rw [List.cons_append, answers, answers, ih]
    rfl

/-- One operation on two sessions that differ in the statistics at most. -/
theorem Twin.exec {timeout : Option Int} {s s' : Session} (h : Twin timeout s s')
    (engines : Option Int → Engine) (op : Operation) :
    ((op.act engines).exec s').1 = ((op.act engines).exec s).1 ∧
      Twin timeout ((op.act engines).exec s).2.1 ((op.act engines).exec s').2.1 := by
  rw [Act.exec_eq, Act.exec_eq]
  have hrun := oblivious_act engines op timeout s s' [] [] h
  generalize (op.act engines).runFrom (s, []) = x, (op.act engines).runFrom (s', []) = x' at hrun
  cases hrun with
  | failed hE => exact ⟨rfl, hE⟩
  | done hQ => exact ⟨congrArg Except.ok hQ.1.symm, hQ.2⟩

end Session

namespace Pool

/-! ### Histories -/

/-- A use of a session that is under way: the number of the session, the name for which it was
taken, and the operations so far with their answers. -/
structure Use where
  number : Nat
  name : String
  done : List (Session.Operation × Except Fault Session.Answer)

/-- A pool with the uses that are under way, the innermost one first. -/
structure Occupied where
  pool : Pool
  uses : List Use

/-- What happens to a pool: a use begins, something is done in the use that has `depth` uses inside
it, or the innermost use ends, normally or not. -/
inductive Event where
  | enter (name : String)
  | operate (depth : Nat) (op : Session.Operation)
  | leave

/-- One event. -/
def Occupied.next (engines : Option Int → Engine) (o : Occupied) : Event → Occupied
  | .enter name =>
    match (spawn name).exec o.pool with
    | (.ok i, pool, _) => ⟨pool, ⟨i, name, []⟩ :: o.uses⟩
    | (.error _, pool, _) => ⟨pool, o.uses⟩
  | .operate depth op =>
    match o.uses[depth]? with
    | none => o
    | some u =>
      let (r, pool, _) := (onSession u.number (op.act engines)).exec o.pool
      ⟨pool, o.uses.set depth { u with done := u.done ++ [(op, r)] }⟩
  | .leave =>
    match o.uses with
    | [] => o
    | u :: uses => ⟨((giveBack u.number).exec o.pool).2.1, uses⟩

/-- A pool that starts without sessions, after a history. -/
def after (engines : Option Int → Engine) (timeout : Option Int) (history : List Event) :
    Occupied := history.foldl (Occupied.next engines) ⟨empty timeout, []⟩

/-! ### The calls of a pool -/

section Calls

variable {p : Pool} {i : Nat} {s : Session}

theorem runFrom_onSession (i : Nat) (act : Act Session α) (log : Log)
    (h : p.sessions[i]? = some s) : (onSession i act).runFrom (p, log) =
      ((act.runFrom (s, log)).1,
        { p with sessions := p.sessions.set i (act.runFrom (s, log)).2.1 },
        (act.runFrom (s, log)).2.2) := by
  have hview : (p.get? i).getD (Session.create "" none) = s := by rw [get?, h, Option.getD_some]
  rw [onSession, Act.runFrom_zoom, hview]

/-- The session that was given back last is taken first. -/
theorem runFrom_spawn_of_free (name : String) {free : List Nat} (hfree : p.free = free ++ [i])
    (h : p.sessions[i]? = some s) (log : Log) : (spawn name).runFrom (p, log) = (.ok i, { p with
      sessions := p.sessions.set i { s with name := name }, free := free }, log) := by
  have hlast : p.free.getLast? = some i := by rw [hfree, List.getLast?_concat]
  have hrest : p.free.dropLast = free := by rw [hfree, List.dropLast_concat]
  have hrename := runFrom_onSession (p := { p with free := free }) i
    (modify fun s : Session => { s with name := name }) log h
  rw [spawn, Act.runFrom_bind_of_ok (Act.runFrom_get _)]
  dsimp only
  rw [hlast, hrest]
  dsimp only
  rw [Act.runFrom_bind_of_ok (Act.runFrom_set _ _), Act.runFrom_bind_of_ok hrename]
  rfl

/-- Without free sessions a new one is made. -/
theorem runFrom_spawn_of_nil (name : String) (hfree : p.free = []) (log : Log) :
    (spawn name).runFrom (p, log) = (.ok p.sessions.length, { p with
      sessions := p.sessions ++ [Session.create name p.timeout] }, log) := by
  obtain ⟨timeout, sessions, free⟩ := p
  obtain rfl : free = [] := hfree
  rfl

theorem runFrom_giveBack (h : p.sessions[i]? = some s) (log : Log) :
    (giveBack i).runFrom (p, log) =
      (.ok (), { p with sessions := p.sessions.set i s.reset, free := p.free ++ [i] }, log) := by
  have hreset := runFrom_onSession i (modify Session.reset) log h
  rw [giveBack, Act.runFrom_bind_of_ok hreset]
  rfl

end Calls

/-! ### The invariant -/

/-- The operations of a use so far. -/
def Use.operations (u : Use) : List Session.Operation := u.done.map (·.1)

/-- What has been answered in a use so far. -/
def Use.answers (u : Use) : List (Except Fault Session.Answer) := u.done.map (·.2)

/-- There is a session with the number, and it has the property. -/
def Holds (sessions : List Session) (i : Nat) (P : Session → Prop) : Prop :=
  ∃ s, sessions[i]? = some s ∧ P s

/-- Free sessions are like new ones. A session in use is like one that was new when the use began,
and so were its answers. -/
structure Tight (engines : Option Int → Engine) (timeout : Option Int) (o : Occupied) : Prop where
  limit : o.pool.timeout = timeout
  nodup : (o.uses.map (·.number) ++ o.pool.free).Nodup
  free : ∀ i ∈ o.pool.free, Holds o.pool.sessions i fun s =>
    Session.Twin timeout (Session.create s.name timeout) s
  uses : ∀ u ∈ o.uses, Holds o.pool.sessions u.number
    (Session.Twin timeout (Session.afterAll engines (Session.create u.name timeout) u.operations))
  answers : ∀ u ∈ o.uses,
    u.answers = Session.answers engines (Session.create u.name timeout) u.operations

section Invariant

variable {engines : Option Int → Engine} {timeout : Option Int} {o : Occupied}
  {sessions : List Session} {i j : Nat} {P : Session → Prop} {s : Session}

theorem Holds.lt (h : Holds sessions i P) : i < sessions.length := by
  obtain ⟨s, hs, -⟩ := h
  exact (List.getElem?_eq_some_iff.1 hs).1

/-- Other sessions are left alone. -/
theorem Holds.set_ne (h : Holds sessions i P) (hij : i ≠ j) (s : Session) :
    Holds (sessions.set j s) i P := by
  obtain ⟨s', hs', hP⟩ := h
  exact ⟨s', (List.getElem?_set_ne hij.symm).trans hs', hP⟩

theorem holds_set_self (hi : i < sessions.length) (h : P s) : Holds (sessions.set i s) i P :=
  ⟨s, List.getElem?_set_self hi, h⟩

theorem Holds.append (h : Holds sessions i P) (s : Session) : Holds (sessions ++ [s]) i P := by
  obtain ⟨s', hs', hP⟩ := h
  exact ⟨s', (List.getElem?_append_left (List.getElem?_eq_some_iff.1 hs').1).trans hs', hP⟩

theorem tight_empty (engines : Option Int → Engine) (timeout : Option Int) :
    Tight engines timeout ⟨empty timeout, []⟩ :=
  ⟨rfl, List.nodup_nil, List.forall_mem_nil _, List.forall_mem_nil _, List.forall_mem_nil _⟩

/-- **A use begins.** A session is taken that is neither in use nor free any more. It is like a new
one with the name and the time limit. -/
theorem Tight.enter (h : Tight engines timeout o) (name : String) :
    ∃ i pool, (∀ log, (spawn name).runFrom (o.pool, log) = (.ok i, pool, log)) ∧
      o.next engines (.enter name) = ⟨pool, ⟨i, name, []⟩ :: o.uses⟩ ∧
      Tight engines timeout ⟨pool, ⟨i, name, []⟩ :: o.uses⟩ := by
  have hnext : ∀ {i pool}, (∀ log, (spawn name).runFrom (o.pool, log) = (.ok i, pool, log)) →
      o.next engines (.enter name) = ⟨pool, ⟨i, name, []⟩ :: o.uses⟩ := by
    intro i pool hrun
    rw [Occupied.next, Act.exec_eq, hrun]
  rcases List.eq_nil_or_concat o.pool.free with hfree | ⟨free, i, hfree⟩
  · -- The new session gets a new number.
    have hnew : o.pool.sessions.length ∉ o.uses.map (·.number) := by
      intro hmem
      obtain ⟨u, hu, hnumber⟩ := List.mem_map.1 hmem
      exact absurd (h.uses u hu).lt (by rw [hnumber]; exact Nat.lt_irrefl _)
    have hlast : (o.pool.sessions ++ [Session.create name o.pool.timeout])[
        o.pool.sessions.length]? = some (Session.create name timeout) := by
      rw [h.limit, List.getElem?_concat_length]
    have hrun := runFrom_spawn_of_nil name hfree
    refine ⟨_, _, hrun, hnext hrun, h.limit, ?_, ?_, ?_, ?_⟩
    · have hnodup := h.nodup
      dsimp only
      rw [hfree, List.append_nil] at hnodup ⊢
      exact List.nodup_cons.2 ⟨hnew, hnodup⟩
    · exact fun j hj => (h.free j hj).append _
    · exact List.forall_mem_cons.2 ⟨⟨_, hlast, rfl, 0, 0, rfl⟩, fun u hu => (h.uses u hu).append _⟩
    · exact List.forall_mem_cons.2 ⟨rfl, h.answers⟩
  · -- The session that was given back last is used again.
    rw [List.concat_eq_append] at hfree
    have hmem : i ∈ o.pool.free := by
      rw [hfree]
      exact List.mem_append_right _ List.mem_cons_self
    obtain ⟨s, hs, -, checks, satisfiable, htwin⟩ := h.free i hmem
    -- Its number goes from the free ones to those in use, where no other session has it.
    have hnodup : (i :: (o.uses.map (·.number) ++ free)).Nodup := by
      have hall := h.nodup
      rw [hfree, ← List.append_assoc] at hall
      exact (List.perm_append_singleton i _).nodup_iff.1 hall
    have hother := (List.nodup_cons.1 hnodup).1
    have hrun := runFrom_spawn_of_free name hfree hs
    refine ⟨_, _, hrun, hnext hrun, h.limit, hnodup, ?_, ?_, ?_⟩
    · intro j hj
      have hjfree : j ∈ o.pool.free := by
        rw [hfree]
        exact List.mem_append_left _ hj
      have hne : j ≠ i := by
        rintro rfl
        exact hother (List.mem_append_right _ hj)
      exact (h.free j hjfree).set_ne hne _
    · refine List.forall_mem_cons.2 ⟨?_, fun u hu => ?_⟩
      · -- Only the statistics of the session tell it from a new one.
        refine holds_set_self (List.getElem?_eq_some_iff.1 hs).1 ⟨rfl, checks, satisfiable, ?_⟩
        rw [htwin]
        rfl
      · have hne : u.number ≠ i := by
          rintro rfl
          exact hother (List.mem_append_left _ (List.mem_map_of_mem hu))
        exact (h.uses u hu).set_ne hne _
    · exact List.forall_mem_cons.2 ⟨rfl, h.answers⟩

/-- **Something is done with a session in use.** The answer is the one of the session that was new
when the use began. -/
theorem Tight.operate (h : Tight engines timeout o) {depth : Nat} {u : Use}
    (hu : o.uses[depth]? = some u) (op : Session.Operation) :
    Tight engines timeout (o.next engines (.operate depth op)) := by
  have hdepth : depth < o.uses.length := (List.getElem?_eq_some_iff.1 hu).1
  have hmem : u ∈ o.uses := List.mem_of_getElem? hu
  obtain ⟨s, hs, htwin⟩ := h.uses u hmem
  obtain ⟨hanswer, hnext⟩ := htwin.exec engines op
  have hrun := runFrom_onSession u.number (op.act engines) [] hs
  have hstate : o.next engines (.operate depth op) =
      ⟨{ o.pool with sessions := o.pool.sessions.set u.number ((op.act engines).exec s).2.1 },
        o.uses.set depth { u with done := u.done ++ [(op, ((op.act engines).exec s).1)] }⟩ := by
    rw [Occupied.next, hu]
    dsimp only
    rw [Act.exec_eq, hrun]
    rfl
  have hnumbers : (o.uses.set depth
      { u with done := u.done ++ [(op, ((op.act engines).exec s).1)] }).map (·.number) =
        o.uses.map (·.number) := by
    have hself : (o.uses.map (·.number))[depth]? = some u.number := by
      rw [List.getElem?_map, hu, Option.map_some]
    obtain ⟨hplace, hnumber⟩ := List.getElem?_eq_some_iff.1 hself
    rw [List.map_set]
    dsimp only
    rw [← hnumber, List.set_getElem_self]
  have hoperations : Use.operations
      { u with done := u.done ++ [(op, ((op.act engines).exec s).1)] } = u.operations ++ [op] :=
    List.map_append
  -- The other uses have other sessions.
  have hother : ∀ (j : Nat) (v : Use), o.uses[j]? = some v → depth ≠ j → v.number ≠ u.number := by
    intro j v hv hne heq
    have huses : (o.uses.map (·.number)).Nodup := (List.nodup_append.1 h.nodup).1
    have hplaces : (o.uses.map (·.number))[depth]? = (o.uses.map (·.number))[j]? := by
      rw [List.getElem?_map, List.getElem?_map, hu, hv, Option.map_some, Option.map_some, heq]
    exact hne ((List.getElem?_inj (by rwa [List.length_map]) huses).1 hplaces)
  rw [hstate]
  refine ⟨h.limit, ?_, ?_, ?_, ?_⟩
  · rw [hnumbers]
    exact h.nodup
  · intro j hj
    have hne : j ≠ u.number := by
      rintro rfl
      exact (List.nodup_append.1 h.nodup).2.2 _ (List.mem_map_of_mem hmem) _ hj rfl
    exact (h.free j hj).set_ne hne _
  · intro v hv
    obtain ⟨j, hj⟩ := List.getElem?_of_mem hv
    rw [List.getElem?_set] at hj
    split at hj
    · -- The use itself goes on.
      rw [Option.some.injEq] at hj
      subst hj
      refine holds_set_self (List.getElem?_eq_some_iff.1 hs).1 ?_
      rw [hoperations, Session.afterAll_concat]
      exact hnext
    · next hne => exact (h.uses v (List.mem_of_getElem? hj)).set_ne (hother j v hj hne) _
  · intro v hv
    rcases List.mem_or_eq_of_mem_set hv with hv | rfl
    · exact h.answers v hv
    · rw [hoperations, Session.answers_concat, ← h.answers u hmem, ← hanswer]
      exact List.map_append

/-- **A use ends,** in whatever state its session is. -/
theorem Tight.leave (h : Tight engines timeout o) {u : Use} {uses : List Use}
    (huses : o.uses = u :: uses) :
    ∃ pool, (∀ log, (giveBack u.number).runFrom (o.pool, log) = (.ok (), pool, log)) ∧
      o.next engines .leave = ⟨pool, uses⟩ ∧ Tight engines timeout ⟨pool, uses⟩ ∧
      u.number ∈ pool.free := by
  have hmem : u ∈ o.uses := by
    rw [huses]
    exact List.mem_cons_self
  obtain ⟨s, hs, htimeout, checks, satisfiable, htwin⟩ := h.uses u hmem
  -- Its number is that of no other use and of no free session.
  have hnodup : (u.number :: (uses.map (·.number) ++ o.pool.free)).Nodup := by
    have hall := h.nodup
    rwa [huses, List.map_cons, List.cons_append] at hall
  have hother := (List.nodup_cons.1 hnodup).1
  have hnext : o.next engines .leave =
      ⟨{ o.pool with sessions := o.pool.sessions.set u.number s.reset,
                     free := o.pool.free ++ [u.number] }, uses⟩ := by
    rw [Occupied.next, huses]
    dsimp only
    rw [Act.exec_eq, runFrom_giveBack hs]
  -- The other uses and the sessions that were free before are left alone.
  refine ⟨_, runFrom_giveBack hs, hnext, ⟨h.limit, ?_, ?_, ?_, ?_⟩, ?_⟩
  · rw [← List.append_assoc]
    exact (List.perm_append_singleton u.number _).nodup_iff.2 hnodup
  · refine List.forall_mem_append.2 ⟨fun j hj => ?_, List.forall_mem_singleton.2 ?_⟩
    · have hne : j ≠ u.number := by
        rintro rfl
        exact hother (List.mem_append_right _ hj)
      exact (h.free j hj).set_ne hne _
    · -- Resetting leaves the name, the time limit and the statistics.
      refine holds_set_self (List.getElem?_eq_some_iff.1 hs).1 ⟨rfl, s.checks, s.satisfiable, ?_⟩
      have hlimit : s.timeout = timeout := by
        rw [htwin]
        exact htimeout
      rw [← hlimit]
      rfl
  · intro v hv
    have hvmem : v ∈ o.uses := by
      rw [huses]
      exact List.mem_cons_of_mem u hv
    have hne : v.number ≠ u.number := by
      intro heq
      exact hother (List.mem_append_left _ (heq ▸ List.mem_map_of_mem hv))
    exact (h.uses v hvmem).set_ne hne _
  · intro v hv
    refine h.answers v ?_
    rw [huses]
    exact List.mem_cons_of_mem u hv
  · exact List.mem_append_right _ List.mem_cons_self

/-- **One event** leaves a pool tight. -/
theorem Tight.next (h : Tight engines timeout o) (e : Event) :
    Tight engines timeout (o.next engines e) := by
  cases e with
  | enter name =>
    obtain ⟨i, pool, -, hnext, htight⟩ := h.enter name
    rw [hnext]
    exact htight
  | operate depth op =>
    cases hu : o.uses[depth]? with
    | some u => exact h.operate hu op
    | none =>
      rw [Occupied.next, hu]
      exact h
  | leave =>
    cases huses : o.uses with
    | nil =>
      rw [Occupied.next, huses]
      exact h
    | cons u uses =>
      obtain ⟨pool, -, hnext, htight, -⟩ := h.leave huses
      rw [hnext]
      exact htight

end Invariant

/-! ### Whole histories -/

/-- **The run lemma.** Whatever happens, the pool is tight. -/
theorem tight_after (engines : Option Int → Engine) (timeout : Option Int)
    (history : List Event) : Tight engines timeout (after engines timeout history) := by
  induction history using List.reverseRecOn with
  | nil => exact tight_empty engines timeout
  | append_singleton history e ih =>
    rw [after, List.foldl_append]
    exact ih.next e

theorem after_concat (engines : Option Int → Engine) (timeout : Option Int)
    (history : List Event) (e : Event) :
    after engines timeout (history ++ [e]) = (after engines timeout history).next engines e :=
  List.foldl_append

/-- **A use is what its events are.** It takes a session, and if the computation with this session
does to the pool what some events do that end with this use, the session is given back. The use ends
as the computation does, normally or not. -/
theorem exists_entered (engines : Option Int → Engine) (timeout : Option Int)
    (history : List Event) (name : String) :
    ∃ i, (after engines timeout (history ++ [.enter name])).uses =
      ⟨i, name, []⟩ :: (after engines timeout history).uses ∧
    ∀ {α : Type} (act : Nat → Act Pool α) (events : List Event) (r : Except Fault α)
      (log log' : Log),
      (act i).runFrom ((after engines timeout (history ++ [.enter name])).pool, log) =
        (r, (after engines timeout (history ++ .enter name :: events)).pool, log') →
      (after engines timeout (history ++ .enter name :: events)).uses.map (·.number) =
        i :: (after engines timeout history).uses.map (·.number) →
      (session name act).runFrom ((after engines timeout history).pool, log) =
        (r, (after engines timeout (history ++ .enter name :: events ++ [.leave])).pool, log') := by
  obtain ⟨i, pool, hspawn, hnext, -⟩ := (tight_after engines timeout history).enter name
  have henter := (after_concat engines timeout history (.enter name)).trans hnext
  refine ⟨i, congrArg Occupied.uses henter, fun act events r log log' hact hnumbers => ?_⟩
  -- The innermost use at the end is the one that has been entered.
  obtain ⟨u, uses, huses, hu, -⟩ := List.map_eq_cons_iff.1 hnumbers
  obtain ⟨pool', hback, hleave, -⟩ := (tight_after engines timeout _).leave huses
  rw [henter] at hact
  rw [session, Act.runFrom_bind_of_ok (hspawn log), Act.runFrom_finally', hact, ← hu, hback,
    after_concat, hleave]

/-- **Nobody can tell** whether a session has been used before. After every history of a pool the
sessions in use are different from each other and not free, and in each use all has been answered as
by a new session with the name and the time limit. A use can begin at any time (with the events that
`session` amounts to), and when it ends its session is free again. -/
theorem indistinguishable (engines : Option Int → Engine) (timeout : Option Int)
    (history : List Event) :
    ((after engines timeout history).uses.map (·.number)).Nodup ∧
    (∀ u ∈ (after engines timeout history).uses,
      u.number ∉ (after engines timeout history).pool.free ∧
      u.answers = Session.answers engines (Session.create u.name timeout) u.operations) ∧
    (∀ name, ∃ i, (after engines timeout (history ++ [.enter name])).uses =
        ⟨i, name, []⟩ :: (after engines timeout history).uses ∧
      ∀ (α : Type) (act : Nat → Act Pool α) (events : List Event) (r : Except Fault α)
        (log log' : Log),
        (act i).runFrom ((after engines timeout (history ++ [.enter name])).pool, log) =
          (r, (after engines timeout (history ++ .enter name :: events)).pool, log') →
        (after engines timeout (history ++ .enter name :: events)).uses.map (·.number) =
          i :: (after engines timeout history).uses.map (·.number) →
        (session name act).runFrom ((after engines timeout history).pool, log) =
          (r, (after engines timeout (history ++ .enter name :: events ++ [.leave])).pool, log')) ∧
    ∀ u uses, (after engines timeout history).uses = u :: uses →
      (after engines timeout (history ++ [.leave])).uses = uses ∧
      u.number ∈ (after engines timeout (history ++ [.leave])).pool.free := by
  have h := tight_after engines timeout history
  obtain ⟨hnodup, -, hdisjoint⟩ := List.nodup_append.1 h.nodup
  refine ⟨hnodup, fun u hu => ⟨fun hfree => ?_, h.answers u hu⟩, fun name => ?_,
    fun u uses hu => ?_⟩
  · exact hdisjoint _ (List.mem_map_of_mem hu) _ hfree rfl
  · obtain ⟨i, hentered, hsession⟩ := exists_entered engines timeout history name
    exact ⟨i, hentered, fun α => hsession⟩
  · obtain ⟨pool, -, hnext, -, hfree⟩ := h.leave hu
    rw [after_concat, hnext]
    exact ⟨rfl, hfree⟩

/-- A session that has been left with a scope open and `false` asserted is taken again, and is
satisfiable. -/
example :
    let engine : Engine :=
      { simplify := id, check := fun ts => if ts.any Term.isFalsum then .unsat else .sat ⟨id⟩ }
    let o := after (fun _ => engine) (some 1000) [.enter "first", .operate 0 .push,
      .operate 0 (.assertTerm .falsum), .operate 0 .checkSat, .leave, .enter "second",
      .operate 0 .checkSat]
    o.uses = [⟨0, "second", [(.checkSat, .ok (.truth true))]⟩] := rfl

end Pool
end Horn
