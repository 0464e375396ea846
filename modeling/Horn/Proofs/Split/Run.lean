import Horn.Proofs.Split.Handle

/-!
# Runs of the split loop

The worlds at the head of the loop form a transition system: in one *round* a part is produced
(`SplitState.Produces`) and handled without a contradiction. `SplitState.Reaches` are the worlds
that a number of rounds reach.

* `produce_ok` and `round_ok` say all that a round can do. Of the collaborators they keep the very
  calls: `Splitter.Preprocesses` for the preprocessor and `SplitState.Asks` for the learner.
* `loop_ok` is the run lemma: a loop with enough fuel stops in a reachable world, either because
  nothing remains or because the part at hand is unsatisfiable. `loop_runs` says that it does not
  fail unless a round does.
* `solve_ok` and `solve_runs` carry both over to `Horn.solve`.
-/

namespace Horn
namespace SplitState

variable {π κ : Type}

/-! ### Producing a part -/

/-- The first half of a round, in which a part is announced and produced. -/
def produce (config : SplitConfig) (p : Preprocessor π) :
    Act (SplitState π κ) (Option Reduced) := do
  report config
  onSplitter (Splitter.advance p)

/-- A part is produced. -/
def Produces (config : SplitConfig) (p : Preprocessor π) (w : World (SplitState π κ)) (r : Reduced)
    (w' : World (SplitState π κ)) : Prop :=
  (produce config p).runFrom w = (.ok (some r), w')

/-- The announcement only writes a record. -/
theorem runFrom_report (config : SplitConfig) (w : World (SplitState π κ)) :
    ∃ log, (report config : Act (SplitState π κ) Unit).runFrom w = (.ok (), w.1, log) := by
  unfold report
  rw [Act.runFrom_bind_of_ok (Act.runFrom_get w)]
  split <;> exact ⟨_, rfl⟩

theorem runFrom_onSplitter {α : Type} (act : Act (Splitter π) α) (w : World (SplitState π κ)) :
    (onSplitter act).runFrom w = ((act.runFrom (w.1.splitter, w.2)).1,
      { w.1 with splitter := (act.runFrom (w.1.splitter, w.2)).2.1 },
      (act.runFrom (w.1.splitter, w.2)).2.2) := Act.runFrom_zoom _ _ _ _

/-- **The first half of a round.** The splitter advances, from the records that include the
announcement, and nothing else changes; or nothing remains. -/
theorem produce_ok {config : SplitConfig} {p : Preprocessor π} {w w' : World (SplitState π κ)}
    {answer : Option Reduced} (hopen : w.1.splitter.isOpen = true)
    (h : (produce config p).runFrom w = (.ok answer, w')) :
    (answer = none ∧ w.1.splitter.progress.remaining = 0 ∧ w'.1 = w.1) ∨
      ∃ r log, answer = some r ∧ w'.1 = { w.1 with splitter := w'.1.splitter } ∧
        Splitter.Advances p (w.1.splitter, log) r (w'.1.splitter, w'.2) := by
  obtain ⟨log, hlog⟩ := runFrom_report config w
  unfold produce at h
  rw [Act.runFrom_bind_of_ok hlog, runFrom_onSplitter] at h
  obtain ⟨hanswer, hw⟩ := Prod.mk.inj h
  -- What the splitter answers in this world is what was produced.
  have hrun : (Splitter.advance p).runFrom (w.1.splitter, log) =
      (.ok answer, ((Splitter.advance p).runFrom (w.1.splitter, log)).2) := Prod.ext hanswer rfl
  rcases Splitter.advance_ok hopen hrun with ⟨rfl, hrem, hsame⟩ | ⟨r, rfl, hadv⟩
  · refine .inl ⟨rfl, hrem, ?_⟩
    rw [← hw]
    dsimp only
    rw [hsame]
  · refine .inr ⟨r, log, rfl, ?_, ?_⟩
    · rw [← hw]
    · rw [← hw]
      exact hadv

/-- Producing a part leaves the splitter its hold, whether or not that fails. -/
theorem holdsTop_produce {config : SplitConfig} {p : Preprocessor π}
    {w w' : World (SplitState π κ)} {answer : Except Fault (Option Reduced)}
    (h : (produce config p).runFrom w = (answer, w')) (hheld : w.1.HoldsTop) :
    w'.1.HoldsTop := by
  obtain ⟨log, hlog⟩ := runFrom_report config w
  unfold produce at h
  rw [Act.runFrom_bind_of_ok hlog, runFrom_onSplitter] at h
  obtain ⟨-, rfl⟩ := Prod.mk.inj h
  exact Splitter.heldBesides_advance p (w := (w.1.splitter, log)) hheld

/-- Producing a part does not fail if the splitter's advance does not. -/
theorem produce_runs {config : SplitConfig} {p : Preprocessor π} {w : World (SplitState π κ)}
    (h : ∀ log, ∃ answer w', (Splitter.advance p).runFrom (w.1.splitter, log) = (.ok answer, w')) :
    ∃ answer w', (produce config p).runFrom w = (.ok answer, w') := by
  obtain ⟨log, hlog⟩ := runFrom_report config w
  obtain ⟨answer, w', hadv⟩ := h log
  unfold produce
  rw [Act.runFrom_bind_of_ok hlog, runFrom_onSplitter, hadv]
  exact ⟨_, _, rfl⟩

/-! ### Rounds -/

/-- The worlds at the head of the loop that are reached from a first one. -/
inductive Reaches (engine : Engine) (config : SplitConfig) (p : Preprocessor π)
    (learner : Learner κ) (start : World (SplitState π κ)) : World (SplitState π κ) → Prop
  | start : Reaches engine config p learner start start
  | round {w w₁ w' : World (SplitState π κ)} {r : Reduced} :
      Reaches engine config p learner start w → Produces config p w r w₁ →
      (handle engine config (some learner) r).runFrom w₁ = (.ok none, w') →
      Reaches engine config p learner start w'

variable {engine : Engine} {config : SplitConfig} {p : Preprocessor π} {learner : Learner κ}

/-- What a first world has and every round keeps holds in all worlds that are reached. -/
theorem Reaches.invariant {P : World (SplitState π κ) → Prop} {start w : World (SplitState π κ)}
    (h : Reaches engine config p learner start w) (hstart : P start)
    (hround : ∀ {w w₁ w' r}, Reaches engine config p learner start w → P w →
      Produces config p w r w₁ →
      (handle engine config (some learner) r).runFrom w₁ = (.ok none, w') → P w') : P w := by
  induction h with
  | start => exact hstart
  | round hw hprod hhandle ih => exact hround hw ih hprod hhandle

/-- Where the loop stops: nothing remains, or a part is unsatisfiable. -/
inductive Stops (engine : Engine) (config : SplitConfig) (p : Preprocessor π) (learner : Learner κ)
    (w : World (SplitState π κ)) : Option String → World (SplitState π κ) → Prop
  | finished {w' : World (SplitState π κ)} : w.1.splitter.progress.remaining = 0 → w'.1 = w.1 →
      Stops engine config p learner w none w'
  | refuted {w₁ w' : World (SplitState π κ)} {r : Reduced} {reason : String} :
      Produces config p w r w₁ →
      (handle engine config (some learner) r).runFrom w₁ = (.ok (some reason), w') →
      Stops engine config p learner w (some reason) w'

/-- The loop, one round at a time. -/
theorem loop_succ (learner? : Option (Learner κ)) (fuel : Nat) :
    loop engine config p learner? (fuel + 1) = (produce config p >>= fun
      | none => pure none
      | some r => handle engine config learner? r >>= fun
        | some reason => pure (some reason)
        | none => loop engine config p learner? fuel) := by
  rw [loop, produce]
  exact (bind_assoc _ _ _).symm

/-- The loop leaves the splitter its hold, whether or not it fails. -/
theorem holdsTop_loop {learner? : Option (Learner κ)} {fuel : Nat} {w w' : World (SplitState π κ)}
    {answer : Except Fault (Option String)}
    (h : (loop engine config p learner? fuel).runFrom w = (answer, w')) (hheld : w.1.HoldsTop) :
    w'.1.HoldsTop := by
  induction fuel generalizing w with
  | zero =>
    cases h
    exact hheld
  | succ fuel ih =>
    rw [loop_succ, Act.runFrom_bind] at h
    rcases hprod : (produce config p).runFrom w with ⟨e | _ | r, w₁⟩
    -- Without a part the loop is over.
    · rw [hprod] at h
      cases h
      exact holdsTop_produce hprod hheld
    · rw [hprod] at h
      cases h
      exact holdsTop_produce hprod hheld
    · rw [hprod] at h
      dsimp only at h
      rw [Act.runFrom_bind] at h
      have hheld₁ : w₁.1.HoldsTop := holdsTop_produce hprod hheld
      rcases hhandle : (handle engine config learner? r).runFrom w₁ with ⟨e | _ | reason, w₂⟩
      · rw [hhandle] at h
        cases h
        exact holdsTop_handle hhandle hheld₁
      · rw [hhandle] at h
        exact ih h (holdsTop_handle hhandle hheld₁)
      · rw [hhandle] at h
        cases h
        exact holdsTop_handle hhandle hheld₁

/-- **The run lemma.** A loop that has fuel for all remaining parts stops in a world that is
reached. -/
theorem loop_ok {start : World (SplitState π κ)}
    (hopen : ∀ w, Reaches engine config p learner start w → w.1.splitter.isOpen = true)
    (hrem : ∀ w w₁ w' r, Reaches engine config p learner start w → Produces config p w r w₁ →
      (handle engine config (some learner) r).runFrom w₁ = (.ok none, w') →
      w'.1.splitter.progress.remaining + 1 = w.1.splitter.progress.remaining)
    {fuel : Nat} {w w' : World (SplitState π κ)} {answer : Option String}
    (hw : Reaches engine config p learner start w)
    (hfuel : w.1.splitter.progress.remaining < fuel)
    (h : (loop engine config p (some learner) fuel).runFrom w = (.ok answer, w')) :
    ∃ w₁, Reaches engine config p learner start w₁ ∧
      Stops engine config p learner w₁ answer w' := by
  induction fuel generalizing w with
  | zero => omega
  | succ fuel ih =>
    rw [loop_succ] at h
    obtain ⟨r?, w₁, hprod, h⟩ := Act.runFrom_bind_ok.1 h
    -- Without a part the loop is over, otherwise the part is handled.
    rcases produce_ok (hopen w hw) hprod with ⟨rfl, hzero, hsame⟩ | ⟨r, _, rfl, -, -⟩
    · cases h
      exact ⟨w, hw, .finished hzero hsame⟩
    · obtain ⟨reason?, w₂, hhandle, h⟩ := Act.runFrom_bind_ok.1 h
      cases reason? with
      | some reason =>
        cases h
        exact ⟨w, hw, .refuted hprod hhandle⟩
      | none =>
        -- The round has taken one part away, so the fuel still suffices.
        have hless := hrem w w₁ w₂ r hw hprod hhandle
        exact ih (hw.round hprod hhandle) (by omega) h

/-- A loop does not fail if no round in a world that is reached does. -/
theorem loop_runs {start : World (SplitState π κ)}
    (hprod : ∀ w, Reaches engine config p learner start w →
      ∃ r? w', (produce config p).runFrom w = (.ok r?, w'))
    (hhandle : ∀ w w₁ r, Reaches engine config p learner start w → Produces config p w r w₁ →
      ∃ answer w', (handle engine config (some learner) r).runFrom w₁ = (.ok answer, w'))
    (fuel : Nat) {w : World (SplitState π κ)} (hw : Reaches engine config p learner start w) :
    ∃ answer w', (loop engine config p (some learner) fuel).runFrom w = (.ok answer, w') := by
  induction fuel generalizing w with
  | zero => exact ⟨none, w, rfl⟩
  | succ fuel ih =>
    rw [loop_succ]
    obtain ⟨r?, w₁, hr⟩ := hprod w hw
    rw [Act.runFrom_bind_of_ok hr]
    -- The loop ends here, or it goes on with a part that can be handled.
    cases r? with
    | none => exact ⟨none, w₁, rfl⟩
    | some r =>
      obtain ⟨reason?, w₂, hreason⟩ := hhandle w w₁ r hw hr
      dsimp only
      rw [Act.runFrom_bind_of_ok hreason]
      cases reason? with
      | some reason => exact ⟨some reason, w₂, rfl⟩
      | none => exact ih (hw.round hr hreason)

/-! ### Whole runs -/

/-- The world in which the loop starts on an instance: the splitter has announced its order. -/
def startWorld (inst : Instance) (config : SplitConfig) (p₀ : π) (l₀ : κ) :
    World (SplitState π κ) :=
  ((onSplitter Splitter.announce).runFrom (create inst config p₀ l₀, [])).2

theorem startWorld_fst (inst : Instance) (config : SplitConfig) (p₀ : π) (l₀ : κ) :
    (startWorld inst config p₀ l₀).1 = create inst config p₀ l₀ := by
  unfold startWorld Splitter.announce
  rw [runFrom_onSplitter, Act.runFrom_bind_of_ok (Act.runFrom_get _)]
  dsimp only
  split <;> rfl

/-- The parts that a run hands over remember right expansions. -/
def PartsRemember (engine : Engine) (config : SplitConfig) (p : Preprocessor π)
    (learner : Learner κ) (start : World (SplitState π κ)) : Prop :=
  ∀ w w₁ part, Reaches engine config p learner start w → Produces config p w (.sub part) w₁ →
    part.Remembers engine.callable part.expansions

section Rounds

variable {inst : Instance} {p₀ : π} {l₀ : κ}

/-- A splitter that has been created holds its instance. -/
theorem holdsTop_startWorld (inst : Instance) (config : SplitConfig) (p₀ : π) (l₀ : κ) :
    (startWorld inst config p₀ l₀).1.HoldsTop := by
  rw [startWorld_fst]
  change 1 + 0 + 0 ≤ inst.holders + 1
  omega

/-- In every world that is reached, the splitter holds its instance. -/
theorem Reaches.holdsTop {w : World (SplitState π κ)}
    (hw : Reaches engine config p learner (startWorld inst config p₀ l₀) w) : w.1.HoldsTop := by
  refine hw.invariant (P := fun w => w.1.HoldsTop) (holdsTop_startWorld inst config p₀ l₀)
    fun _ hheld hprod hhandle => ?_
  exact holdsTop_handle hhandle (holdsTop_produce hprod hheld)

/-- **A round.** In a world that keeps the problem, a part is produced and handled as
`Splitter.Advances` and `Handled` say. -/
theorem round_ok (hinfer : config.infer = true) {w w₁ : World (SplitState π κ)} {r : Reduced}
    (hheld : w.1.HoldsTop) (hkeeps : (Splitter.create inst config p₀).Keeps w.1.splitter)
    (hprod : Produces config p w r w₁)
    (hmem : ∀ part, r = .sub part → part.Remembers engine.callable part.expansions) :
    w₁.1 = { w.1 with splitter := w₁.1.splitter } ∧
      (∃ log, Splitter.Advances p (w.1.splitter, log) r (w₁.1.splitter, w₁.2)) ∧
      ∀ answer w', (handle engine config (some learner) r).runFrom w₁ = (.ok answer, w') →
        Handled engine learner w₁ r answer w' := by
  rcases produce_ok hkeeps.isOpen hprod with ⟨h, -⟩ | ⟨r', log, hr, hsame, hadv⟩
  · cases h
  · obtain rfl := Option.some.inj hr
    exact ⟨hsame, ⟨log, hadv⟩,
      fun answer w' h => handled_of_handle hinfer (holdsTop_produce hprod hheld) hmem h⟩

/-- What has been handled keeps the problem. -/
theorem Handled.keeps {w w' : World (SplitState π κ)} {r : Reduced} {answer : Option String}
    (h : Handled engine learner w r answer w') : w.1.splitter.Keeps w'.1.splitter := by
  cases h with
  | refuted => exact Splitter.Keeps.refl _
  | decided hk => exact hk
  | unsat _ _ hk => exact hk
  | learned _ _ _ hk => exact hk

/-- Handling a part without a contradiction does not produce anything. -/
theorem Handled.progress {w w' : World (SplitState π κ)} {r : Reduced}
    (h : Handled engine learner w r none w') :
    w'.1.splitter.progress = w.1.splitter.progress := by
  cases h with
  | decided _ hp => exact hp
  | learned _ _ _ _ hp => exact hp

/-- Every world that is reached keeps the problem. -/
theorem Reaches.keeps (hinfer : config.infer = true)
    (hmem : PartsRemember engine config p learner (startWorld inst config p₀ l₀))
    {w : World (SplitState π κ)}
    (hw : Reaches engine config p learner (startWorld inst config p₀ l₀) w) :
    (Splitter.create inst config p₀).Keeps w.1.splitter := by
  refine hw.invariant (P := fun w => (Splitter.create inst config p₀).Keeps w.1.splitter) ?_
    fun hw hkeeps hprod hhandle => ?_
  · rw [startWorld_fst]
    exact Splitter.Keeps.refl _
  · obtain ⟨-, ⟨log, hadv⟩, hhandled⟩ :=
      round_ok hinfer hw.holdsTop hkeeps hprod fun part h => hmem _ _ part hw (h ▸ hprod)
    -- The production keeps the problem, and so does the handling.
    exact (hkeeps.trans hadv.keeps).trans (hhandled _ _ hhandle).keeps

/-- A splitter that has its hold can be closed. -/
theorem close_runs {w : World (SplitState π κ)} (hheld : w.1.HoldsTop)
    (hkeeps : (Splitter.create inst config p₀).Keeps w.1.splitter) :
    ∃ w', (onSplitter Splitter.close).runFrom w = (.ok (), w') := by
  have hpos := hheld.holders_ne_zero
  have hopen : w.1.splitter.isOpen = true := hkeeps.isOpen
  rw [runFrom_onSplitter]
  unfold Splitter.close
  rw [Act.runFrom_bind_of_ok (Act.runFrom_get _)]
  dsimp only
  rw [if_pos hopen, Instance.release, if_neg hpos]
  exact ⟨_, rfl⟩

/-- The outcome that the loop's answer stands for. -/
def outcomeOf (answer : Option String) (candidates : Accumulator) : Outcome :=
  match answer with
  | some reason => .unsat reason
  | none => .model candidates

/-- Running the loop from the world in which it starts, with or without inference. -/
theorem runFrom_run_eq (engine : Engine) (inst : Instance) (config : SplitConfig)
    (p : Preprocessor π) (learner? : Option (Learner κ)) (p₀ : π) (l₀ : κ) :
    (run engine config p learner?).runFrom (create inst config p₀ l₀, []) =
      match (loop engine config p learner?
        ((Splitter.create inst config p₀).total + 1)).runFrom (startWorld inst config p₀ l₀) with
      | (.ok (some reason), w) => (.ok (.unsat reason), w)
      | (.ok none, w) => (.ok (if config.infer then .model w.1.candidates else .noModel), w)
      | (.error e, w) => (.error e, w) := by
  -- The announcement leads to the first world.
  have hann : (onSplitter Splitter.announce).runFrom (create inst config p₀ l₀, []) =
      (.ok (), startWorld inst config p₀ l₀) := by
    unfold startWorld Splitter.announce
    rw [runFrom_onSplitter, Act.runFrom_bind_of_ok (Act.runFrom_get _)]
    dsimp only
    split <;> rfl
  unfold run
  rw [Act.runFrom_bind_of_ok hann, Act.runFrom_bind_of_ok (Act.runFrom_get _), startWorld_fst,
    Act.runFrom_bind]
  have hcreate : (create inst config p₀ l₀).splitter = Splitter.create inst config p₀ := rfl
  rw [hcreate]
  rcases (loop engine config p learner?
    ((Splitter.create inst config p₀).total + 1)).runFrom (startWorld inst config p₀ l₀) with
    ⟨_ | _ | reason, w⟩
  · rfl
  · cases config.infer <;> rfl
  · rfl

/-- Running the loop with a learner from the world in which it starts. -/
theorem runFrom_run (hinfer : config.infer = true) :
    (run engine config p (some learner)).runFrom (create inst config p₀ l₀, []) =
      match (loop engine config p (some learner)
        ((Splitter.create inst config p₀).total + 1)).runFrom (startWorld inst config p₀ l₀) with
      | (.ok answer, w) => (.ok (outcomeOf answer w.1.candidates), w)
      | (.error e, w) => (.error e, w) := by
  rw [runFrom_run_eq]
  rcases (loop engine config p (some learner)
    ((Splitter.create inst config p₀).total + 1)).runFrom (startWorld inst config p₀ l₀) with
    ⟨_ | _ | reason, w⟩
  · rfl
  · dsimp only
    rw [if_pos hinfer]
    rfl
  · rfl

/-- The loop stops in a world that is reached: each round takes one part away, and there is fuel for
all of them. -/
theorem loop_stops (hinfer : config.infer = true)
    (hmem : PartsRemember engine config p learner (startWorld inst config p₀ l₀))
    {answer : Option String} {w' : World (SplitState π κ)}
    (h : (loop engine config p (some learner)
      ((Splitter.create inst config p₀).total + 1)).runFrom (startWorld inst config p₀ l₀) =
        (.ok answer, w')) :
    ∃ w, Reaches engine config p learner (startWorld inst config p₀ l₀) w ∧
      Stops engine config p learner w answer w' := by
  refine loop_ok (fun w hw => (hw.keeps hinfer hmem).isOpen) ?_ .start ?_ h
  · -- Handling does not touch the progress, and the production takes one part away.
    intro w w₁ w' r hw hprod hhandle
    obtain ⟨-, ⟨log, hadv⟩, hhandled⟩ := round_ok hinfer hw.holdsTop (hw.keeps hinfer hmem) hprod
      fun part h => hmem _ _ part hw (h ▸ hprod)
    rw [(hhandled _ _ hhandle).progress]
    exact hadv.remaining
  · rw [startWorld_fst]
    exact Nat.lt_succ_of_le (Splitter.remaining_create inst config p₀)

/-- Where a run stops, the problem has been kept. -/
theorem Stops.keeps (hinfer : config.infer = true)
    (hmem : PartsRemember engine config p learner (startWorld inst config p₀ l₀))
    {w w' : World (SplitState π κ)} {answer : Option String}
    (hw : Reaches engine config p learner (startWorld inst config p₀ l₀) w)
    (h : Stops engine config p learner w answer w') :
    (Splitter.create inst config p₀).Keeps w'.1.splitter := by
  have hkeeps := hw.keeps hinfer hmem
  cases h with
  | finished _ hsame =>
    rw [hsame]
    exact hkeeps
  | refuted hprod hhandle =>
    obtain ⟨-, ⟨log, hadv⟩, hhandled⟩ :=
      round_ok hinfer hw.holdsTop hkeeps hprod fun part h => hmem _ _ part hw (h ▸ hprod)
    exact (hkeeps.trans hadv.keeps).trans (hhandled _ _ hhandle).keeps

/-- **A run that ends.** The outcome of a successful run is where the loop stops. -/
theorem solve_ok (hinfer : config.infer = true)
    (hmem : PartsRemember engine config p learner (startWorld inst config p₀ l₀))
    {outcome : Outcome} {s' : SplitState π κ} {log : Log}
    (h : Horn.solve engine inst config p (some learner) p₀ l₀ = (.ok outcome, s', log)) :
    ∃ answer w w', Reaches engine config p learner (startWorld inst config p₀ l₀) w ∧
      Stops engine config p learner w answer w' ∧ outcome = outcomeOf answer w'.1.candidates := by
  unfold Horn.solve SplitState.solve at h
  rw [Option.isNone_some, Bool.and_false, if_neg Bool.false_ne_true, Act.exec_eq,
    Act.runFrom_finally', runFrom_run hinfer] at h
  rcases hloop : (loop engine config p (some learner)
    ((Splitter.create inst config p₀).total + 1)).runFrom (startWorld inst config p₀ l₀) with
    ⟨e | answer, w'⟩
  · rw [hloop] at h
    -- A loop that fails makes the run fail, however the splitter is closed.
    dsimp only at h
    split at h <;> cases h
  · rw [hloop] at h
    dsimp only at h
    split at h
    · cases h
      obtain ⟨w, hw, hstop⟩ := loop_stops hinfer hmem hloop
      exact ⟨answer, w, w', hw, hstop, rfl⟩
    · cases h

/-- **A run ends** if no round fails in a world that is reached. -/
theorem solve_runs (hinfer : config.infer = true)
    (hmem : PartsRemember engine config p learner (startWorld inst config p₀ l₀))
    (hprod : ∀ w, Reaches engine config p learner (startWorld inst config p₀ l₀) w →
      ∃ r? w', (produce config p).runFrom w = (.ok r?, w'))
    (hhandle : ∀ w w₁ r, Reaches engine config p learner (startWorld inst config p₀ l₀) w →
      Produces config p w r w₁ →
      ∃ answer w', (handle engine config (some learner) r).runFrom w₁ = (.ok answer, w')) :
    ∃ outcome s' log,
      Horn.solve engine inst config p (some learner) p₀ l₀ = (.ok outcome, s', log) := by
  obtain ⟨answer, w', hloop⟩ :=
    loop_runs hprod hhandle ((Splitter.create inst config p₀).total + 1) .start
  obtain ⟨w, hw, hstop⟩ := loop_stops hinfer hmem hloop
  obtain ⟨w'', hclose⟩ := close_runs (holdsTop_loop hloop (holdsTop_startWorld _ _ _ _))
    (hstop.keeps hinfer hmem hw)
  unfold Horn.solve SplitState.solve
  rw [Option.isNone_some, Bool.and_false, if_neg Bool.false_ne_true, Act.exec_eq,
    Act.runFrom_finally', runFrom_run hinfer, hloop]
  dsimp only
  -- The splitter can be closed, so that the outcome is the one of the loop.
  rw [hclose]
  exact ⟨_, _, _, rfl⟩

end Rounds

end SplitState
end Horn
