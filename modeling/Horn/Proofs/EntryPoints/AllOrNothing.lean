import Horn.Proofs.EntryPoints.Faults
import Horn.Proofs.EntryPoints.Justified
import Horn.Proofs.Oracle.Levels

/-!
# All or nothing

A trial of a clause either records all samples of one model, or it records nothing. The session is
as before in any case.

* `Reconstruction.recorded` is the end of a trial: something is asked on the session, and the answer
  is recorded. `runFrom_recorded` says what becomes of it if all is asked in a scope, at whatever
  point it fails. A query is of this kind (`exists_confined_query`).
* `Fault.Surfaces` relates the failure of a query to the failure of the trial.
* `witness_all_or_nothing` is the result on trials, for reconstructions of accepted pairs of
  instances (`Reconstruction.Accepted`). What is accepted stays accepted, so it applies to the next
  trial, too.
-/

namespace Horn

variable {α β : Type}

/-! ### Loops in a scope -/

namespace Session

theorem Confined.forM {f : β → Act Session PUnit} {l : List β} (h : ∀ b ∈ l, Confined (f b)) :
    Confined (l.forM f) := by
  induction l with
  | nil => exact .ofExcept (.ok PUnit.unit)
  | cons b l ih =>
    rw [List.forall_mem_cons] at h
    exact .bind h.1 fun _ => ih h.2

theorem Confined.mapM {f : β → Act Session α} {l : List β} (h : ∀ b ∈ l, Confined (f b)) :
    Confined (l.mapM f) := by
  induction l with
  | nil => exact .ofExcept (.ok [])
  | cons b l ih =>
    rw [List.forall_mem_cons] at h
    rw [List.mapM_cons]
    exact .bind h.1 fun a => .bind (ih h.2) fun as => .ofExcept (.ok (a :: as))

end Session

/-! ### Failures -/

/-- How the failure of a query in the trial of a clause for a sample surfaces: those of the oracle,
of the engine and of values carry the clause and the sample. -/
inductive Fault.Surfaces (clause : Int) (sample : Sample) : Fault → Fault → Prop
  | oracle {fault : Fault} : fault.origin = .oracle →
    Surfaces clause sample fault (.oracleFailed clause sample fault)
  | engine {fault : Fault} : fault.origin = .engine →
    Surfaces clause sample fault (.engineFailed clause sample fault)
  | value {fault : Fault} : fault.origin = .value →
    Surfaces clause sample fault (.valueFailed clause sample fault)
  | other {fault : Fault} :
    fault = .outOfRange ∨ fault = .badNumberType ∨ fault = .zeroDenominator →
    Surfaces clause sample fault fault

namespace Reconstruction

/-- A failure of a query surfaces as it is blamed. -/
theorem surfaces_blame (clause : Int) (sample : Sample) {fault : Fault} (h : fault.OfQuery) :
    fault.Surfaces clause sample (blame clause sample fault) := by
  unfold blame
  cases horigin : fault.origin with
  | oracle => exact .oracle horigin
  | engine => exact .engine horigin
  | value => exact .value horigin
  | other => exact .other (h horigin)

/-! ### Asking in a scope -/

/-- Asks on the session, and records what has been found. -/
def recorded (clause : Int) (sample : Sample) (ask : Act Session (Option (List Sample))) :
    Act Reconstruction Bool := do
  match ← Act.attempt (onSession ask) with
  | .error fault => throw (blame clause sample fault)
  | .ok none => pure false
  | .ok (some found) =>
    modify fun r => { r with samples := SampleSet.union r.samples found }
    pure true

/-- **Whatever is asked in a scope,** and at whatever point it fails, the scopes of the session are
as before, and only an answer with samples is recorded. -/
theorem runFrom_recorded {body : Act Session (Option (List Sample))} (hbody : Session.Confined body)
    (clause : Int) (sample : Sample) (r : Reconstruction) (log : Log) :
    ∃ answer s' log', (Session.scope body).runFrom (r.session, log) = (answer, s', log') ∧
      s'.inner = r.session.inner ∧ s'.base = r.session.base ∧
      (recorded clause sample (Session.scope body)).runFrom (r, log) =
        match answer with
        | .error fault => (.error (blame clause sample fault), { r with session := s' }, log')
        | .ok none => (.ok false, { r with session := s' }, log')
        | .ok (some found) => (.ok true,
            { r with session := s', samples := SampleSet.union r.samples found }, log') := by
  obtain ⟨s', hrun, hinner, hbase⟩ := hbody.runFrom_scope r.session log
  refine ⟨_, s', _, hrun, hinner, hbase, ?_⟩
  unfold recorded
  rw [Act.runFrom_bind, Act.runFrom_attempt, onSession, Act.runFrom_zoom, hrun]
  rcases (body.runFrom (Session.push.runFrom (r.session, log)).2).1 with fault | _ | found
  · rfl
  · rfl
  · rfl

/-- A query asks in a scope. -/
theorem exists_confined_query (engine : Engine) (positive : List Nat) (c : Clause)
    (args : List Term) (values : List Value) :
    ∃ body, Session.Confined body ∧
      query engine positive c args values = Session.scope body := by
  refine ⟨_, ?_, rfl⟩
  refine .bind (.declare _) fun _ => ?_
  refine .bind (.forM fun t _ => .assertTerm t) fun _ => ?_
  refine .bind (.forM fun a _ => .assertApp _ _ _ _) fun _ => ?_
  refine .bind (.forM fun a _ => ?_) fun _ => ?_
  -- An unknown value pins nothing.
  · refine .bind (.ofExcept _) fun o => ?_
    cases o with
    | none => exact .ofExcept (.ok PUnit.unit)
    | some t => exact .assertTerm t
  · refine .bind (.checkSat engine) fun b => ?_
    cases b with
    | false => exact .ofExcept (.ok none)
    -- Only a satisfiable query has a model to read values off.
    | true =>
      refine .bind .getModel fun m => ?_
      refine .bind (.mapM fun u _ => ?_) fun found => .ofExcept (.ok (some found.flatten))
      exact .bind (.ofExcept _) fun samples => .ofExcept (.ok _)

variable {engine : Engine} {r : Reconstruction} {pred : Int} {sample : Sample}

/-- A trial of a clause that concludes the predicate, with as many arguments as the sample has, asks
its query and records the answer. -/
theorem runFrom_witness_recorded {clause : Int} {c : Clause}
    (hc : r.original.clause clause = .ok c) {p : Nat} {args : List Term}
    (hconclusion : c.conclusion = some (p, args)) (hp : (p : Int) = pred)
    (hargs : args.length = sample.args.length) (log : Log) :
    (witness engine pred sample clause).runFrom (r, log) =
      (recorded clause sample (query engine r.positive c args sample.args)).runFrom (r, log) := by
  unfold witness
  rw [Act.runFrom_bind_of_ok (Act.runFrom_get _), Act.runFrom_bind, Act.runFrom_ofExcept, hc]
  dsimp only
  rw [hconclusion]
  dsimp only
  rw [if_neg (not_not_intro hp), if_neg (not_not_intro hargs)]
  rfl

/-! ### Accepted pairs of instances -/

/-- The reconstruction is one of a pair of instances with the same predicates. -/
structure Accepted (r : Reconstruction) : Prop where
  names : checkNames r.original r.working = .ok ()
  safe : r.safe = r.working.safePredicates
  positive : r.positive = r.working.positivePredicates

/-- A reconstruction starts with the safe and the positive predicates of the working instance. -/
theorem accepted_initial {original working : Instance} (h : checkNames original working = .ok ())
    (todo : List Sample) (session : Session) : (initial original working todo session).Accepted :=
  ⟨h, rfl, rfl⟩

theorem accepted_of_create {original working : Instance} {todo : List Sample} {session : Session}
    {log : Log} (h : create original working todo session = .ok (r, log)) : r.Accepted := by
  obtain ⟨_, hnames, -⟩ := bind_eq_ok.1 h
  obtain rfl := create_ok h
  exact accepted_initial hnames todo session

theorem Accepted.congr {r' : Reconstruction} (h : r.Accepted) (h' : r.Alike r') : r'.Accepted := by
  refine ⟨?_, ?_, ?_⟩
  · rw [h'.original, h'.working]
    exact h.names
  · rw [h'.safe, h'.working]
    exact h.safe
  · rw [h'.positive, h'.working]
    exact h.positive

/-! ### The result -/

/-- The samples `found` are the evaluations, under the model, of all applications on the left of the
clause whose predicate is positive, and the other applications have values, too. -/
structure Evaluations (positive : List Nat) (c : Clause) (m : Model) (found : List Sample) : Prop
    where
  total : ∀ a ∈ c.apps, ∃ values,
    List.Forall₂ (fun t v => Value.ofTerm (m.eval t) = .ok v) a.2 values
  exact : ∀ s, s ∈ found ↔ ∃ a ∈ c.apps, a.1 ∈ positive ∧ s.pred = (a.1 : Int) ∧
    List.Forall₂ (fun t v => Value.ofTerm (m.eval t) = .ok v) a.2 s.args

/-- **A trial is all or nothing.** Whatever is asked in a scope in a trial of a clause, and at
whatever point it fails, all scopes of the session are as before, with their assertions and
declarations, and samples are recorded only if there is an answer with samples.

A trial asks in this way if the clause concludes the predicate with as many arguments as the sample
has, and otherwise it asks nothing. Only the last model and the statistics of the session are not as
before. If the trial succeeds, exactly the evaluations of the applications of positive predicates
under one model have been recorded, and the engine has given this model for the assertions of the
session and those of the query. Else nothing has been recorded; and if the query has failed, the
failure carries the clause and the sample unless it is of none of the three origins. -/
theorem witness_all_or_nothing (engine : Engine) {r : Reconstruction} (h : r.Accepted) (pred : Int)
    (sample : Sample) {clause : Int} {c : Clause} (hc : r.original.clause clause = .ok c)
    (log : Log) :
    (∀ body, Session.Confined body → ∃ answer s' log',
      (Session.scope body).runFrom (r.session, log) = (answer, s', log') ∧
      s'.inner = r.session.inner ∧ s'.base = r.session.base ∧
      (recorded clause sample (Session.scope body)).runFrom (r, log) =
        match answer with
        | .error fault => (.error (blame clause sample fault), { r with session := s' }, log')
        | .ok none => (.ok false, { r with session := s' }, log')
        | .ok (some found) => (.ok true,
            { r with session := s', samples := SampleSet.union r.samples found }, log')) ∧
    ∃ x r', (witness engine pred sample clause).runFrom (r, log) = (x, r', log) ∧
      r'.Accepted ∧ r.Alike r' ∧ r'.todo = r.todo ∧
      (x ≠ .ok true → r'.samples = r.samples) ∧
      (x = .ok true → ∃ p args ts m found, c.conclusion = some (p, args) ∧ (p : Int) = pred ∧
        constraints engine.callable r.session c args sample.args = .ok ts ∧
        engine.check (r.session.assertions ++ ts) = .sat m ∧
        r'.samples = SampleSet.union r.samples found ∧
        Evaluations r.working.positivePredicates c m found) ∧
      ∀ p args, c.conclusion = some (p, args) → (p : Int) = pred →
        args.length = sample.args.length →
        (∃ body, Session.Confined body ∧
          query engine r.positive c args sample.args = Session.scope body) ∧
        (witness engine pred sample clause).runFrom (r, log) =
          (recorded clause sample (query engine r.positive c args sample.args)).runFrom (r, log) ∧
        ∀ fault, ((query engine r.positive c args sample.args).runFrom (r.session, log)).1 =
            .error fault →
          ∃ surfaced, x = .error surfaced ∧ fault.Surfaces clause sample surfaced := by
  obtain ⟨r', hrun, hgains⟩ := runFrom_witness engine pred sample clause r log
  refine ⟨fun body hbody => runFrom_recorded hbody clause sample r log, _, r', hrun,
    h.congr hgains.alike, hgains.alike, hgains.todo, fun hx => ?_, fun hx => ?_,
    fun p args hconclusion hp hargs => ⟨exists_confined_query _ _ _ _ _,
      runFrom_witness_recorded hc hconclusion hp hargs log, fun fault hfault => ?_⟩⟩
  · -- Without success nothing is found.
    rw [hgains.samples]
    rcases htried : tried engine r pred sample clause with fault | _ | found
    · rfl
    · rfl
    · rw [htried] at hx
      exact absurd rfl hx
  · rcases htried : tried engine r pred sample clause with fault | _ | found
    · rw [htried] at hx
      cases hx
    · rw [htried] at hx
      cases hx
    · obtain ⟨p, args, ts, hconclusion, hp, -, hts, hanswer⟩ := exists_answer_of_tried hc htried
      obtain ⟨m, hcheck, hevaluated⟩ := sat_of_answer hanswer
      rw [h.positive] at hevaluated
      refine ⟨p, args, ts, m, found, hconclusion, hp, hts, hcheck, ?_,
        ⟨fun a => exists_values_of_evaluated hevaluated, mem_evaluated hevaluated⟩⟩
      rw [hgains.samples, htried]
      rfl
  · obtain ⟨s', hquery, -⟩ :=
      runFrom_query engine r.positive c args sample.args r.session log
    rw [hquery] at hfault
    dsimp only at hfault
    rw [tried_of_conclusion hc hconclusion hp hargs, hfault]
    exact ⟨_, rfl, surfaces_blame clause sample
      (raises_asked engine r.positive r.session c args sample.args fault hfault)⟩

/-- The trial of the clause of `guarded` for `C(3)` records `A(true, 3)` and leaves the session with
the definitions of `guard` alone. -/
theorem witness_all_or_nothing_guarded :
    let r := initial guarded guard []
      { Session.create "session" none with definitions := some guard }
    r.Accepted ∧ ∃ r', (witness knowing 1 ⟨1, [.int 3]⟩ 0).runFrom (r, []) = (.ok true, r', []) ∧
      r'.samples = [⟨0, [.bool true, .int 3]⟩] ∧ r.Alike r' ∧
      ∃ c m found, r'.samples = SampleSet.union [] found ∧ Evaluations [0] c m found := by
  intro r
  have haccepted : r.Accepted := accepted_initial rfl _ _
  have hclause : r.original.clause 0 = .ok ⟨0, [⟨"x", .int⟩], [],
    [⟨0, [[.verum, .const ⟨"x", .int⟩]]⟩], some (1, [.const ⟨"x", .int⟩]), false, true⟩ := rfl
  obtain ⟨-, x, r', hrun, -, halike, -, -, hfound, -⟩ :=
    witness_all_or_nothing knowing haccepted 1 ⟨1, [.int 3]⟩ hclause []
  have hx : .ok true = x := congrArg Prod.fst hrun
  have hsamples : [⟨0, [.bool true, .int 3]⟩] = r'.samples :=
    congrArg (fun y : Except Fault Bool × World Reconstruction => y.2.1.samples) hrun
  subst hx
  obtain ⟨-, -, -, m, found, -, -, -, -, hunion, hevaluations⟩ := hfound rfl
  exact ⟨haccepted, r', hrun, hsamples.symm, halike, _, m, found, hunion, hevaluations⟩

end Reconstruction
end Horn
