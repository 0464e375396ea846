import Horn.Proofs.EntryPoints.Query
import Horn.Proofs.Sample.Set
import Mathlib.Data.List.Induction

/-!
# What reconstruction computes

Reconstruction works on one session, and it records samples as it goes. Nonetheless the outcome for
a sample is a function of what is there at the beginning (`Reconstruction.recovered`): of the
original instance, the safe and the positive predicates, and the session up to its last model and
its statistics. None of these is changed when a clause is tried (`Reconstruction.runFrom_witness`)
or when a sample is reconstructed (`Reconstruction.runFrom_reconstruct`); what has been found is
added to the recorded samples, and nothing is added by what fails.

So a run recovers the samples one by one, the last one first, and takes the union of what it has
found (`Reconstruction.results_eq`). It fails if one of the samples cannot be recovered.
-/

namespace Horn
namespace Reconstruction

/-- Two reconstructions agree on all that the outcome for a sample depends on. -/
structure Alike (r r' : Reconstruction) : Prop where
  original : r'.original = r.original
  working : r'.working = r.working
  safe : r'.safe = r.safe
  positive : r'.positive = r.positive
  session : r.session.Alike r'.session

namespace Alike

variable {r r' r'' : Reconstruction}

theorem refl (r : Reconstruction) : Alike r r := ⟨rfl, rfl, rfl, rfl, .refl _⟩

theorem trans (h : Alike r r') (h' : Alike r' r'') : Alike r r'' :=
  ⟨h'.original.trans h.original, h'.working.trans h.working, h'.safe.trans h.safe,
    h'.positive.trans h.positive, h.session.trans h'.session⟩

end Alike

/-- The reconstruction has recorded what has been found, and nothing else has changed. -/
structure Gains (r : Reconstruction) (found : List Sample) (r' : Reconstruction) : Prop where
  alike : r.Alike r'
  todo : r'.todo = r.todo
  samples : r'.samples = SampleSet.union r.samples found

namespace Gains

variable {r r' r'' : Reconstruction} {found found' : List Sample}

theorem refl (r : Reconstruction) : Gains r [] r := ⟨.refl r, rfl, rfl⟩

theorem trans (h : Gains r found r') (h' : Gains r' found' r'') : Gains r (found ++ found') r'' :=
  ⟨h.alike.trans h'.alike, h'.todo.trans h.todo, by
    rw [h'.samples, h.samples, SampleSet.union_append]⟩

end Gains

variable {engine : Engine} {pred : Int} {sample : Sample}

/-! ### One clause -/

/-- The outcome of trying a clause: what has been found, or `none` if the clause does not
reconstruct the sample. -/
def tried (engine : Engine) (r : Reconstruction) (pred : Int) (sample : Sample) (clause : Int) :
    Except Fault (Option (List Sample)) :=
  (r.original.clause clause).bind fun c =>
    match c.conclusion with
    | none => .error (.noConclusion clause)
    | some (p, args) =>
      if (p : Int) ≠ pred then
        (r.original.pred p).bind fun concluded => (r.original.pred pred).bind fun wanted =>
          .error (.wrongConclusion clause sample concluded.name wanted.name)
      else if args.length ≠ sample.args.length then .error (.conclusionArity clause sample)
      else ((constraints engine.callable r.session c args sample.args).bind
        (answer engine r.positive r.session c)).mapError (blame clause sample)

/-- What has been found, if anything. -/
def foundIn : Except Fault (Option (List Sample)) → List Sample
  | .ok (some found) => found
  | _ => []

theorem tried_congr {r r' : Reconstruction} (h : r.Alike r') (clause : Int) :
    tried engine r' pred sample clause = tried engine r pred sample clause := by
  unfold tried
  rw [h.original, h.positive]
  simp only [constraints_congr h.session, funext (answer_congr h.session engine r.positive _)]

/-- Trying a clause asks on the session, and takes a failure as an outcome. -/
theorem runFrom_ask (engine : Engine) (positive : List Nat) (c : Clause) (args : List Term)
    (values : List Value) (r : Reconstruction) (log : Log) :
    ∃ s', (Act.attempt (onSession (query engine positive c args values))).runFrom (r, log) =
      (.ok ((constraints engine.callable r.session c args values).bind
          (answer engine positive r.session c)),
        { r with session := s' }, log) ∧ r.session.Alike s' := by
  obtain ⟨s', hrun, hs'⟩ := runFrom_query engine positive c args values r.session log
  refine ⟨s', ?_, hs'⟩
  rw [Act.runFrom_attempt, onSession, Act.runFrom_zoom, hrun]

/-- **Trying a clause records what has been found.** -/
theorem runFrom_witness (engine : Engine) (pred : Int) (sample : Sample) (clause : Int)
    (r : Reconstruction) (log : Log) :
    ∃ r', (witness engine pred sample clause).runFrom (r, log) =
      ((tried engine r pred sample clause).map Option.isSome, r', log) ∧
      Gains r (foundIn (tried engine r pred sample clause)) r' := by
  unfold witness tried
  rw [Act.runFrom_bind_of_ok (Act.runFrom_get _), Act.runFrom_bind, Act.runFrom_ofExcept]
  cases r.original.clause clause with
  | error e => exact ⟨r, rfl, .refl r⟩
  | ok c =>
    simp only [ok_bind]
    cases c.conclusion with
    | none => exact ⟨r, rfl, .refl r⟩
    | some a =>
      obtain ⟨p, args⟩ := a
      dsimp only
      split
      · -- The clause concludes another predicate; the names are for the message.
        rw [Act.runFrom_bind, Act.runFrom_ofExcept]
        cases r.original.pred p with
        | error e => exact ⟨r, rfl, .refl r⟩
        | ok concluded =>
          dsimp only
          rw [Act.runFrom_bind, Act.runFrom_ofExcept]
          cases r.original.pred pred <;> exact ⟨r, rfl, .refl r⟩
      · split
        · exact ⟨r, rfl, .refl r⟩
        · obtain ⟨s', hask, hs'⟩ := runFrom_ask engine r.positive c args sample.args r log
          have halike : r.Alike { r with session := s' } := ⟨rfl, rfl, rfl, rfl, hs'⟩
          rw [Act.runFrom_bind_of_ok hask]
          generalize (constraints engine.callable r.session c args sample.args).bind
            (answer engine r.positive r.session c) = answered
          rcases answered with fault | _ | found
          · exact ⟨_, rfl, halike, rfl, rfl⟩
          · exact ⟨_, rfl, halike, rfl, rfl⟩
          · exact ⟨_, rfl, halike.trans ⟨rfl, rfl, rfl, rfl, .refl _⟩, rfl, rfl⟩

/-! ### One sample -/

/-- The outcome of trying the clauses of a list until one reconstructs the sample. -/
def firstTried (engine : Engine) (r : Reconstruction) (pred : Int) (sample : Sample) :
    List Nat → Except Fault (Option (List Sample))
  | [] => .ok none
  | c :: cs => (tried engine r pred sample c).bind fun
    | some found => .ok (some found)
    | none => firstTried engine r pred sample cs

theorem firstTried_congr {r r' : Reconstruction} (h : r.Alike r') (cs : List Nat) :
    firstTried engine r' pred sample cs = firstTried engine r pred sample cs := by
  induction cs with
  | nil => rfl
  | cons c cs ih => rw [firstTried, firstTried, tried_congr h, ih]

theorem firstTried_append (r : Reconstruction) (cs ds : List Nat) :
    firstTried engine r pred sample (cs ++ ds) = (firstTried engine r pred sample cs).bind fun
      | some found => .ok (some found)
      | none => firstTried engine r pred sample ds := by
  induction cs with
  | nil => rfl
  | cons c cs ih =>
    rw [List.cons_append, firstTried, firstTried, ih]
    match tried engine r pred sample c with
    | .error e => rfl
    | .ok none => rfl
    | .ok (some found) => rfl

/-- What the first clause finds that reconstructs the sample is recorded. -/
theorem runFrom_firstWitness (engine : Engine) (pred : Int) (sample : Sample) (cs : List Nat)
    (r : Reconstruction) (log : Log) :
    ∃ x r', (firstWitness engine pred sample cs).runFrom (r, log) = (x, r', log) ∧
      x.map Option.isSome = (firstTried engine r pred sample cs).map Option.isSome ∧
      Gains r (foundIn (firstTried engine r pred sample cs)) r' := by
  induction cs generalizing r with
  | nil => exact ⟨.ok none, r, rfl, rfl, .refl r⟩
  | cons c cs ih =>
    obtain ⟨r₁, hrun, hr₁⟩ := runFrom_witness engine pred sample c r log
    rw [firstWitness, firstTried, Act.runFrom_bind, hrun]
    match htried : tried engine r pred sample c with
    | .error e =>
      rw [htried] at hr₁
      exact ⟨.error e, r₁, rfl, rfl, hr₁⟩
    | .ok (some found) =>
      rw [htried] at hr₁
      exact ⟨.ok (some c), r₁, rfl, rfl, hr₁⟩
    | .ok none =>
      -- Nothing has been recorded, so the next clause starts from the same point.
      rw [htried] at hr₁
      obtain ⟨x, r₂, hrun', hx, hr₂⟩ := ih r₁
      rw [firstTried_congr hr₁.alike] at hx hr₂
      exact ⟨x, r₂, hrun', hx, hr₁.trans hr₂⟩

/-- The outcome of reconstructing a sample: what has been found. -/
def recovered (engine : Engine) (r : Reconstruction) (pred : Int) (sample : Sample) :
    Except Fault (List Sample) :=
  (sample.textIn r.original).bind fun rendered =>
    (r.clausesFor pred).bind fun clauses =>
      (firstTried engine r pred sample (clauses.1 ++ clauses.2)).bind fun
        | some found => .ok found
        | none => .error (.unreconstructable sample rendered)

theorem recovered_congr {r r' : Reconstruction} (h : r.Alike r') :
    recovered engine r' pred sample = recovered engine r pred sample := by
  have hclauses : r'.clausesFor pred = r.clausesFor pred := by
    unfold clausesFor
    rw [h.original, h.safe]
  unfold recovered
  rw [h.original, hclauses]
  simp only [firstTried_congr h]

/-- **Reconstructing a sample records what has been found.** -/
theorem runFrom_reconstruct (engine : Engine) (pred : Int) (sample : Sample) (r : Reconstruction)
    (log : Log) :
    ∃ r' log', (reconstruct engine pred sample).runFrom (r, log) =
      ((recovered engine r pred sample).map fun _ => (), r', log') ∧
      Gains r (((recovered engine r pred sample).toOption).getD []) r' := by
  unfold reconstruct recovered
  rw [Act.runFrom_bind_of_ok (Act.runFrom_get _), Act.runFrom_bind, Act.runFrom_ofExcept]
  cases sample.textIn r.original with
  | error e => exact ⟨r, log, rfl, .refl r⟩
  | ok rendered =>
    simp only [ok_bind]
    rw [Act.runFrom_bind_of_ok (Act.runFrom_debug _ _ _), Act.runFrom_bind, Act.runFrom_ofExcept]
    cases r.clausesFor pred with
    | error e => exact ⟨r, _, rfl, .refl r⟩
    | ok clauses =>
      obtain ⟨facts, others⟩ := clauses
      dsimp only [ok_bind]
      rw [Act.runFrom_bind_of_ok (Act.runFrom_debug _ _ _), Act.runFrom_bind, firstTried_append]
      generalize hlog : ((r, _) : World Reconstruction) = w
      obtain ⟨x, r₁, hrun, hx, hr₁⟩ := runFrom_firstWitness engine pred sample facts r w.2
      have hw : w = (r, w.2) := by rw [← hlog]
      rw [hw, hrun]
      match firstTried engine r pred sample facts, x, hx, hr₁ with
      | .error e, .error _, hx, hr₁ =>
        cases hx
        exact ⟨r₁, _, rfl, hr₁⟩
      | .ok (some found), .ok (some c), _, hr₁ => exact ⟨r₁, _, rfl, hr₁⟩
      | .ok none, .ok none, _, hr₁ =>
        -- No fact reconstructs the sample; the other clauses start from the same point.
        dsimp only [ok_bind]
        obtain ⟨y, r₂, hrun', hy, hr₂⟩ := runFrom_firstWitness engine pred sample others r₁ w.2
        rw [firstTried_congr hr₁.alike] at hy hr₂
        rw [Act.runFrom_bind, hrun']
        match firstTried engine r pred sample others, y, hy, hr₂ with
        | .error e, .error _, hy, hr₂ =>
          cases hy
          exact ⟨r₂, _, rfl, hr₁.trans hr₂⟩
        | .ok (some found), .ok (some c), _, hr₂ => exact ⟨r₂, _, rfl, hr₁.trans hr₂⟩
        | .ok none, .ok none, _, hr₂ => exact ⟨r₂, _, rfl, hr₁.trans hr₂⟩

/-! ### All samples -/

/-- **The samples are recovered one by one**, the last one first. -/
theorem runFrom_runAll (engine : Engine) (todo : List Sample) (r : Reconstruction) (log : Log)
    (h : r.todo = todo) :
    ∃ r' log', (runAll engine todo.length).runFrom (r, log) =
      ((todo.reverse.mapM fun s => recovered engine r s.pred s).map fun _ => (), r', log') ∧
      ∀ founds, (todo.reverse.mapM fun s => recovered engine r s.pred s) = .ok founds →
        r'.samples = SampleSet.union r.samples founds.flatten := by
  induction todo using List.reverseRecOn generalizing r log with
  | nil => exact ⟨r, log, rfl, by rintro founds ⟨⟩; rfl⟩
  | append_singleton l s ih =>
    rw [List.length_append, List.length_singleton, runAll, List.reverse_append,
      List.reverse_singleton, List.singleton_append, List.mapM_cons]
    rw [Act.runFrom_bind_of_ok (Act.runFrom_get _)]
    dsimp only
    rw [h, List.getLast?_concat, List.dropLast_concat]
    dsimp only
    rw [Act.runFrom_bind_of_ok (Act.runFrom_set _ _), Act.runFrom_bind]
    -- The next sample is taken from the list, and then it is reconstructed.
    have htaken : r.Alike { r with todo := l } := ⟨rfl, rfl, rfl, rfl, .refl _⟩
    obtain ⟨r₁, log₁, hrun, hr₁⟩ := runFrom_reconstruct engine s.pred s { r with todo := l } log
    rw [recovered_congr htaken] at hrun hr₁
    rw [hrun]
    cases hs : recovered engine r s.pred s with
    | error e => exact ⟨r₁, log₁, rfl, by rintro founds ⟨⟩⟩
    | ok found =>
      rw [hs] at hr₁
      obtain ⟨r₂, log₂, hrun', hr₂⟩ := ih r₁ log₁ hr₁.todo
      have halike := htaken.trans hr₁.alike
      simp only [recovered_congr halike] at hrun' hr₂
      refine ⟨r₂, log₂, ?_, fun founds hfounds => ?_⟩
      · change (runAll engine l.length).runFrom (r₁, log₁) = _
        rw [hrun']
        cases l.reverse.mapM fun s => recovered engine r s.pred s <;> rfl
      · obtain ⟨rest, hrest, hfounds⟩ :=
          bind_eq_ok.1 (show (l.reverse.mapM _ >>= _) = _ from hfounds)
        cases hfounds
        rw [hr₂ rest hrest, hr₁.samples]
        exact (SampleSet.union_append _ _ _).symm

/-- The reconstruction once the definitions have been written, if there is a safe predicate. -/
def opened (r : Reconstruction) : Except Fault Reconstruction :=
  if r.safe.isEmpty then .ok r
  else if r.session.definitions.isSome then .error (.definitionsTwice r.session.name)
  else .ok { r with session := { r.session with definitions := some r.working } }

/-- Writing definitions succeeds once. -/
theorem runFrom_writeDefinitions (inst : Instance) (s : Session) (log : Log) :
    ∃ log', (Session.writeDefinitions inst).runFrom (s, log) =
      if s.definitions.isSome then (.error (.definitionsTwice s.name), s, log')
      else (.ok (), { s with definitions := some inst }, log') := by
  unfold Session.writeDefinitions
  rw [Act.runFrom_bind_of_ok (Act.runFrom_get _)]
  dsimp only
  cases s.definitions.isSome with
  | true => exact ⟨log, rfl⟩
  | false => exact ⟨_, rfl⟩

/-- What is run after the definitions have been written. -/
theorem runFrom_opened {α : Type} (next : Unit → Act Reconstruction α) (r : Reconstruction)
    (log : Log) :
    ∃ log', (if !r.safe.isEmpty then onSession (Session.writeDefinitions r.working) >>= next
        else next ()).runFrom (r, log) =
      match opened r with
      | .ok r' => (next ()).runFrom (r', log')
      | .error e => (.error e, r, log') := by
  unfold opened
  cases r.safe.isEmpty with
  | true => exact ⟨log, rfl⟩
  | false =>
    obtain ⟨log', hrun⟩ := runFrom_writeDefinitions r.working r.session log
    refine ⟨log', ?_⟩
    rw [if_pos Bool.not_false, if_neg Bool.false_ne_true, Act.runFrom_bind, onSession,
      Act.runFrom_zoom, hrun]
    cases r.session.definitions.isSome <;> rfl

/-- Writing the definitions changes the session only. -/
theorem opened_ok {r r' : Reconstruction} (h : opened r = .ok r') :
    r'.original = r.original ∧ r'.working = r.working ∧ r'.todo = r.todo ∧ r'.samples = r.samples ∧
      r'.safe = r.safe ∧ r'.positive = r.positive ∧ r'.session.assertions = r.session.assertions ∧
      (r.safe ≠ [] → r'.session.definitions = some r.working) := by
  unfold opened at h
  split at h
  · next hsafe =>
    cases h
    exact ⟨rfl, rfl, rfl, rfl, rfl, rfl, rfl, fun hne => absurd (List.isEmpty_iff.1 hsafe) hne⟩
  · split at h
    · cases h
    · cases h
      exact ⟨rfl, rfl, rfl, rfl, rfl, rfl, rfl, fun _ => rfl⟩

/-- **A run takes the union** of what is recovered for the samples. -/
theorem run_eq (r : Reconstruction) :
    ((run engine).exec r).1 = (opened r).bind fun r' =>
      (r.todo.reverse.mapM fun s => recovered engine r' s.pred s).map fun founds =>
        SampleSet.union r.samples founds.flatten := by
  rw [Act.exec_eq]
  unfold run
  rw [Act.runFrom_bind_of_ok (Act.runFrom_get _)]
  -- The session is opened once, and all the rest runs in it.
  obtain ⟨log, hrun⟩ := runFrom_opened (fun _ => do
    runAll engine r.todo.length
    onSession (modify Session.reset)
    pure (← get).samples) r []
  refine (congrArg Prod.fst hrun).trans ?_
  cases hopened : opened r with
  | error e => rfl
  | ok r' =>
    obtain ⟨-, -, htodo, hsamples, -⟩ := opened_ok hopened
    -- The loop takes the samples of the to-do list from its end.
    obtain ⟨r₁, log₁, hall, hr₁⟩ := runFrom_runAll engine r.todo r' log htodo
    dsimp only [ok_bind]
    rw [Act.runFrom_bind, hall]
    cases hfounds : r.todo.reverse.mapM fun s => recovered engine r' s.pred s with
    | error e => rfl
    | ok founds =>
      rw [← hsamples]
      exact congrArg Except.ok (hr₁ founds hfounds)

/-- A reconstruction of two instances whose session has the definitions, if there is a safe
predicate, and the given assertions. -/
structure IsOpen (original working : Instance) (assertions : List Term) (r : Reconstruction) :
    Prop where
  original : r.original = original
  safe : r.safe = working.safePredicates
  positive : r.positive = working.positivePredicates
  assertions : r.session.assertions = assertions
  definitions : working.safePredicates ≠ [] → r.session.definitions = some working

/-- A reconstruction that has not begun. -/
def initial (original working : Instance) (todo : List Sample) (session : Session) :
    Reconstruction :=
  ⟨original, working, todo, session, [], working.safePredicates, working.positivePredicates⟩

theorem isOpen_of_opened {original working : Instance} {todo : List Sample} {session : Session}
    {r : Reconstruction} (h : opened (initial original working todo session) = .ok r) :
    r.IsOpen original working session.assertions := by
  obtain ⟨horiginal, -, -, -, hsafe, hpositive, hassertions, hdefinitions⟩ := opened_ok h
  exact ⟨horiginal, hsafe, hpositive, hassertions, hdefinitions⟩

/-- The definitions are there for a clause with safe predicates, if it has any. -/
theorem IsOpen.written {original working : Instance} {assertions : List Term} {r : Reconstruction}
    (h : r.IsOpen original working assertions) {ps : List Nat}
    (hsafe : ∀ p ∈ ps, p ∈ working.safePredicates) (hne : ps ≠ []) :
    r.session.definitions = some working := by
  obtain ⟨p, hp⟩ := List.exists_mem_of_ne_nil ps hne
  exact h.definitions (List.ne_nil_of_mem (hsafe p hp))

theorem create_ok {original working : Instance} {todo : List Sample} {session : Session}
    {r : Reconstruction} {log : Log} (h : create original working todo session = .ok (r, log)) :
    r = initial original working todo session := by
  obtain ⟨-, -, h⟩ := bind_eq_ok.1 h
  cases h
  rfl

/-- The outcome of reconstructing a list of samples with a session. -/
def results (engine : Engine) (original working : Instance) (session : Session)
    (samples : List Sample) : Except Fault SampleSet :=
  (create original working samples session).bind fun r => ((run engine).exec r.1).1

/-- The reconstruction that all samples are recovered by. -/
def started (original working : Instance) (session : Session) : Except Fault Reconstruction :=
  (checkNames original working).bind fun _ => opened (initial original working [] session)

/-- What is recovered for a list of samples, once the definitions have been written. -/
theorem results_eq (engine : Engine) (original working : Instance) (session : Session)
    (samples : List Sample) :
    results engine original working session samples = (started original working session).bind
      fun r => (samples.reverse.mapM fun s => recovered engine r s.pred s).map fun founds =>
        SampleSet.union [] founds.flatten := by
  unfold results create started
  cases checkNames original working with
  | error e => rfl
  | ok _ =>
    change ((run engine).exec (initial original working samples session)).1 = _
    rw [run_eq]
    change (opened (initial original working samples session)).bind _ =
      (opened (initial original working [] session)).bind _
    -- The list of samples does not matter for what is written.
    unfold opened initial
    dsimp only
    have hcongr : ∀ s : Session, (⟨original, working, [], s, [], working.safePredicates,
        working.positivePredicates⟩ : Reconstruction).Alike ⟨original, working, samples, s, [],
          working.safePredicates, working.positivePredicates⟩ :=
      fun s => ⟨rfl, rfl, rfl, rfl, .refl s⟩
    split
    · simp only [ok_bind, recovered_congr (hcongr _)]
    · split
      · rfl
      · simp only [ok_bind, recovered_congr (hcongr _)]

/-- A run succeeds if every sample is recovered. -/
theorem results_ok_iff {original working : Instance} {session : Session} {samples : List Sample}
    {m : SampleSet} : results engine original working session samples = .ok m ↔
      ∃ r, started original working session = .ok r ∧ ∃ founds,
        (samples.reverse.mapM fun s => recovered engine r s.pred s) = .ok founds ∧
          m = SampleSet.union [] founds.flatten := by
  rw [results_eq]
  constructor
  · intro h
    obtain ⟨r, hr, h⟩ := bind_eq_ok.1 h
    cases hfounds : samples.reverse.mapM fun s => recovered engine r s.pred s with
    | error e =>
      rw [hfounds] at h
      cases h
    | ok founds =>
      rw [hfounds] at h
      cases h
      exact ⟨r, hr, founds, hfounds, rfl⟩
  · rintro ⟨r, hr, founds, hfounds, rfl⟩
    rw [hr, ok_bind, hfounds]
    rfl

end Reconstruction
end Horn
