import Horn.Proofs.Split.Rounds
import Horn.Proofs.Split.Session

/-!
# The trace of the split loop

Which calls a run of the split loop makes, and what its result says of their answers
(`SplitState.Trace`). The preprocessor is called on the clauses to isolate, in their order. The
learner is called once on each part that preprocessing has not decided, with what the rounds before
have recorded. A round that amounts to a contradiction or to a failure is the last one, and the
result is that of the last round, or the outcome of a run that was completed.

`trace_of_solve` says this of every run, whatever the preprocessor and the learner do.
-/

namespace Horn

variable {π κ : Type}

/-! ### Answers that end a run -/

/-- Only the learner's answer makes a lesson one of a contradiction. -/
theorem Lesson.finding_eq_unsat {engine : Engine} {top : Instance} {l : Lesson} {reason : String} :
    l.finding engine top = .ok (.unsat reason) ↔ l.answer = .ok (.unsat reason) := by
  unfold finding conclusion
  cases l.answer with
  | error e => exact ⟨nofun, nofun⟩
  | ok answer =>
    cases answer with
    | unsat reason' =>
      constructor
      · intro h
        cases h
        rfl
      · intro h
        cases h
        rfl
    | candidate candidate =>
      refine ⟨fun h => ?_, nofun⟩
      -- From a candidate a map is learned, or nothing.
      dsimp only [Except.bind] at h
      cases hr : Instance.recorded engine top l.left candidate with
      | error e =>
        rw [hr] at h
        cases h
      | ok r =>
        rw [hr] at h
        cases h

/-- A part is produced if the preprocessor answers with it. -/
theorem Reduction.produced_eq_ok {c : Reduction} {reduced : Reduced} :
    c.produced = .ok reduced ↔ c.answer = .ok reduced := by
  unfold produced
  cases c.answer with
  | error e => exact ⟨nofun, nofun⟩
  | ok reduced' =>
    constructor
    · intro h
      cases h
      rfl
    · intro h
      cases h
      rfl

namespace Round

/-- The part of a round is the instance itself or the answer of the preprocessor. -/
theorem produced_eq_ok {r : Round} {reduced : Reduced} : r.produced = .ok reduced ↔
    (r.reduction = none ∧ reduced = .whole) ∨
      ∃ c, r.reduction = some c ∧ c.answer = .ok reduced := by
  unfold produced
  cases r.reduction with
  | none =>
    constructor
    · intro h
      cases h
      exact .inl ⟨rfl, rfl⟩
    · rintro (⟨-, rfl⟩ | ⟨c, hc, -⟩)
      · rfl
      · cases hc
  | some c =>
    constructor
    · intro h
      exact .inr ⟨c, rfl, Reduction.produced_eq_ok.1 h⟩
    · rintro (⟨hnone, -⟩ | ⟨d, hd, hanswer⟩)
      · cases hnone
      · cases hd
        exact Reduction.produced_eq_ok.2 hanswer

/-- An answer of the round is that the instance is unsatisfiable: one of the preprocessor, or one of
the learner, which gives the reason. -/
def Refutes (r : Round) (reason : String) : Prop :=
  (∃ c, r.reduction = some c ∧ c.answer = .ok (.trivial none) ∧ reason = "by preprocessing") ∨
    ∃ l, r.lesson = some l ∧ l.answer = .ok (.unsat reason)

/-- Without a part for the learner there is no call of it. -/
theorem Due.lesson_eq_none {engine : Engine} {inst : Instance} {asks : Bool}
    {before : List Round} {r : Round} (h : r.Due engine inst asks before)
    (hpart : r.part? inst before = none) : r.lesson = none := by
  have hlesson := h.lesson
  rw [hpart, Option.map_none, ite_self, Option.map_eq_none_iff] at hlesson
  exact hlesson

/-- The preprocessor's answer that there is a contradiction is what is produced. -/
theorem refutes_iff {r : Round} {reason : String} : r.Refutes reason ↔
    (r.produced = .ok (.trivial none) ∧ reason = "by preprocessing") ∨
      ∃ l, r.lesson = some l ∧ l.answer = .ok (.unsat reason) := by
  unfold Refutes
  rw [produced_eq_ok]
  constructor
  · rintro (⟨c, hc, hanswer, hreason⟩ | hlesson)
    · exact .inl ⟨.inr ⟨c, hc, hanswer⟩, hreason⟩
    · exact .inr hlesson
  · rintro (⟨⟨-, hwhole⟩ | ⟨c, hc, hanswer⟩, hreason⟩ | hlesson)
    · cases hwhole
    · exact .inl ⟨c, hc, hanswer, hreason⟩
    · exact .inr hlesson

/-- A part that is left to the learner is refuted by the learner only. -/
theorem finding_ofPart_eq_unsat {engine : Engine} {inst : Instance} {lesson? : Option Lesson}
    (reduced : Option Instance) {reason : String} :
    (SplitState.ofPart reduced).finding engine inst lesson? = .ok (.unsat reason) ↔
      ∃ l, lesson? = some l ∧ l.answer = .ok (.unsat reason) := by
  rw [SplitState.finding_ofPart]
  cases lesson? with
  | none => simp
  | some l => simp [Lesson.finding_eq_unsat]

/-- A round amounts to a contradiction if one of its answers is one. -/
theorem Due.finding_eq_unsat {engine : Engine} {inst : Instance} {asks : Bool}
    {before : List Round} {r : Round} (h : r.Due engine inst asks before) {reason : String} :
    r.finding engine inst = .ok (.unsat reason) ↔ r.Refutes reason := by
  rw [refutes_iff]
  unfold finding
  -- Only a round with a part asks the learner: in the other three cases there is no lesson.
  cases hproduced : r.produced with
  | error e =>
    have hnone : r.lesson = none := h.lesson_eq_none (by rw [part?, hproduced])
    simp [Except.bind, hnone]
  | ok reduced =>
    rcases reduced with _ | part | _ | model
    · have hwhole : Reduced.whole.finding engine inst r.lesson = .ok (.unsat reason) ↔ _ :=
        finding_ofPart_eq_unsat none
      simpa [Except.bind] using hwhole
    · have hsub : (Reduced.sub part).finding engine inst r.lesson = .ok (.unsat reason) ↔ _ :=
        finding_ofPart_eq_unsat (some part)
      simpa [Except.bind] using hsub
    · have hnone : r.lesson = none := h.lesson_eq_none (by rw [part?, hproduced])
      simp [Except.bind, Reduced.finding, hnone, eq_comm]
    · have hnone : r.lesson = none := h.lesson_eq_none (by rw [part?, hproduced])
      cases hcheck : inst.checkHandles model <;>
        simp [Except.bind, Reduced.finding, hnone, hcheck, Except.map]

end Round

namespace SplitState

/-- The run is completed: all of the agenda has been produced, and each round has gone well. -/
structure Completed (engine : Engine) (inst : Instance) (config : SplitConfig)
    (rounds : List Round) : Prop where
  agenda : rounds.map Round.clause? = Splitter.agenda inst config
  goesOn : ∀ r ∈ rounds, r.GoesOn engine inst

/-- The trace of a run, which leads the collaborators from their first states, without holds, to
their last ones. -/
structure Trace (engine : Engine) (inst : Instance) (config : SplitConfig) (p : Preprocessor π)
    (learner? : Option (Learner κ)) (p₀ : π) (p₁ : Visitor π) (l₀ : κ) (l₁ : Visitor κ)
    (rounds : List Round) (result : Except Fault Outcome) : Prop where
  /-- These are all calls of the preprocessor, and those of the learner. -/
  reductions : Reduction.Calls p ⟨p₀, 0⟩ (Round.reductions rounds) p₁
  lessons : Lesson.Calls learner? ⟨l₀, 0⟩ (Round.lessons rounds) l₁
  /-- The clauses are isolated in their order, and only an instance that is not split is handed over
  itself. -/
  order : (Round.reductions rounds).map (·.clause) <+: Splitter.order inst config
  agenda : rounds.map Round.clause? <+: Splitter.agenda inst config
  /-- Each round follows from the rounds before, and none of these has ended the run. -/
  due : ∀ before r after, rounds = before ++ r :: after → r.Due engine inst config.infer before
  unsat : ∀ reason, result = .ok (.unsat reason) ↔ ∃ r ∈ rounds, r.Refutes reason
  failed : ∀ e, result = .error e ↔ ∃ r ∈ rounds, r.finding engine inst = .error e
  model : ∀ m, result = .ok (.model m) ↔ config.infer = true ∧
    Completed engine inst config rounds ∧ m = Round.accumulated engine inst rounds
  noModel : result = .ok .noModel ↔ config.infer = false ∧ Completed engine inst config rounds

variable {engine : Engine} {inst : Instance} {config : SplitConfig} {p : Preprocessor π}
  {learner? : Option (Learner κ)} {p₀ : π} {l₀ : κ} {rounds : List Round}

/-- A round that amounts to a contradiction or a failure is the only one. -/
theorem Conducted.eq_last {s : SplitState π κ} {r b : Round} {x : Except Fault Finding}
    (h : Conducted engine inst config p learner? p₀ l₀ (rounds ++ [r]) s)
    (hb : b ∈ rounds ++ [r]) (hx : b.finding engine inst = x)
    (hnot : ∀ model, x ≠ .ok (.learned model)) : b = r := by
  rcases List.mem_append.1 hb with hb | hb
  · obtain ⟨model, hmodel⟩ := (h.due rounds r [] rfl).goesOn b hb
    exact absurd (hx.symm.trans hmodel) (hnot model)
  · exact List.mem_singleton.1 hb

/-- Some round amounts to a contradiction if some answer is one. -/
theorem Conducted.refutes_iff {s : SplitState π κ}
    (h : Conducted engine inst config p learner? p₀ l₀ rounds s) {reason : String} :
    (∃ r ∈ rounds, r.Refutes reason) ↔
      ∃ r ∈ rounds, r.finding engine inst = .ok (.unsat reason) := by
  have hiff : ∀ r ∈ rounds, r.finding engine inst = .ok (.unsat reason) ↔ r.Refutes reason := by
    intro r hr
    obtain ⟨before, after, hsplit⟩ := List.append_of_mem hr
    exact (h.due before r after hsplit).finding_eq_unsat
  constructor
  · rintro ⟨r, hr, hrefutes⟩
    exact ⟨r, hr, (hiff r hr).2 hrefutes⟩
  · rintro ⟨r, hr, hfinding⟩
    exact ⟨r, hr, (hiff r hr).1 hfinding⟩

/-- What the result of a run says of its rounds. -/
structure Tells (engine : Engine) (inst : Instance) (config : SplitConfig) (rounds : List Round)
    (result : Except Fault Outcome) : Prop where
  unsat : ∀ reason, result = .ok (.unsat reason) ↔
    ∃ r ∈ rounds, r.finding engine inst = .ok (.unsat reason)
  failed : ∀ e, result = .error e ↔ ∃ r ∈ rounds, r.finding engine inst = .error e
  model : ∀ m, result = .ok (.model m) ↔ config.infer = true ∧
    Completed engine inst config rounds ∧ m = Round.accumulated engine inst rounds
  noModel : result = .ok .noModel ↔ config.infer = false ∧ Completed engine inst config rounds

/-- A run that is completed tells what has been accumulated, if a model is asked for. -/
theorem Completed.tells (h : Completed engine inst config rounds) {m : Accumulator}
    (hm : m = Round.accumulated engine inst rounds) :
    Tells engine inst config rounds (.ok (outcome config m none)) := by
  -- The rounds of a completed run all went on, so none of them found a contradiction or failed.
  have hunsat : ∀ reason, ¬∃ r ∈ rounds, r.finding engine inst = .ok (.unsat reason) := by
    rintro reason ⟨r, hr, hfinding⟩
    obtain ⟨model, hmodel⟩ := h.goesOn r hr
    cases hfinding.symm.trans hmodel
  have hfailed : ∀ e, ¬∃ r ∈ rounds, r.finding engine inst = .error e := by
    rintro e ⟨r, hr, hfinding⟩
    obtain ⟨model, hmodel⟩ := h.goesOn r hr
    cases hfinding.symm.trans hmodel
  cases hinfer : config.infer with
  | true =>
    refine ⟨fun reason => ?_, fun e => ?_, fun m' => ?_, ?_⟩
    · simp [outcome, hinfer, hunsat]
    · simp [hfailed]
    · simp [outcome, hinfer, h, ← hm, eq_comm]
    · simp [outcome, hinfer]
  | false =>
    refine ⟨fun reason => ?_, fun e => ?_, fun m' => ?_, ?_⟩
    · simp [outcome, hinfer, hunsat]
    · simp [hfailed]
    · simp [outcome, hinfer]
    · simp [outcome, hinfer, h]

/-- A run that was ended by a round tells what that round amounts to. -/
theorem tells_of_last {r : Round} {x : Except Fault Finding}
    (hlast : ∀ b ∈ rounds ++ [r], ∀ y, b.finding engine inst = y →
      (∀ model, y ≠ .ok (.learned model)) → y = x)
    (hx : r.finding engine inst = x) (hnot : ∀ model, x ≠ .ok (.learned model))
    (candidates : Accumulator) :
    Tells engine inst config (rounds ++ [r])
      ((x.map Finding.answer).map (outcome config candidates)) := by
  have hr : r ∈ rounds ++ [r] := List.mem_append_right _ (List.mem_singleton_self r)
  have hcompleted : ¬Completed engine inst config (rounds ++ [r]) := by
    intro h
    obtain ⟨model, hmodel⟩ := h.goesOn r hr
    exact hnot model (hx.symm.trans hmodel)
  have hiff : ∀ y, (∀ model, y ≠ .ok (.learned model)) →
      ((∃ b ∈ rounds ++ [r], b.finding engine inst = y) ↔ y = x) := by
    intro y hy
    constructor
    · rintro ⟨b, hb, hfinding⟩
      exact hlast b hb y hfinding hy
    · rintro rfl
      exact ⟨r, hr, hx⟩
  rcases x with e | reason | model
  · -- The run has failed with the round.
    refine ⟨fun reason => ?_, fun e' => ?_, fun m => ?_, ?_⟩
    · rw [hiff (.ok (.unsat reason)) nofun]
      simp [Except.map]
    · rw [hiff (.error e') nofun]
      simp [Except.map, eq_comm]
    · simp [Except.map, hcompleted]
    · simp [Except.map, hcompleted]
  · refine ⟨fun reason' => ?_, fun e => ?_, fun m => ?_, ?_⟩
    · rw [hiff (.ok (.unsat reason')) nofun]
      simp [Except.map, Finding.answer, outcome, eq_comm]
    · rw [hiff (.error e) nofun]
      simp [Except.map]
    · simp [Except.map, Finding.answer, outcome, hcompleted]
    · simp [Except.map, Finding.answer, outcome, hcompleted]
  · exact absurd rfl (hnot model)

/-- The result of a run is told by how its loop ends. -/
theorem Ends.tells {s : SplitState π κ} {answer : Except Fault (Option String)}
    (h : Ends engine inst config s rounds answer)
    (hbooks : Conducted engine inst config p learner? p₀ l₀ rounds s) :
    Tells engine inst config rounds (answer.map (outcome config s.candidates)) := by
  cases h with
  | finished hon hdone hcandidates => exact Completed.tells ⟨hdone, hon⟩ hcandidates
  | @refuted rounds r reason hfinding =>
    refine tells_of_last (fun b hb y hy hy' => ?_) hfinding nofun s.candidates
    obtain rfl := hbooks.eq_last hb hy hy'
    exact hy.symm.trans hfinding
  | @failed rounds r e hfinding =>
    refine tells_of_last (fun b hb y hy hy' => ?_) hfinding nofun s.candidates
    obtain rfl := hbooks.eq_last hb hy hy'
    exact hy.symm.trans hfinding

/-- **The trace of a run.** A run that is given a learner, if it needs one, has a trace. The last
states of collaborators that list their calls tell that there are no others. -/
theorem trace_of_solve (engine : Engine) (inst : Instance) (config : SplitConfig)
    (p : Preprocessor π) (learner? : Option (Learner κ)) (p₀ : π) (l₀ : κ)
    (hgiven : config.infer = true → learner?.isSome = true) :
    ∃ rounds, Trace engine inst config p learner? p₀
      (Horn.solve engine inst config p learner? p₀ l₀).2.1.splitter.preprocessor l₀
      (Horn.solve engine inst config p learner? p₀ l₀).2.1.learner rounds
      (Horn.solve engine inst config p learner? p₀ l₀).1 := by
  obtain ⟨rounds, answer, s, log, hsolve, hbooks, hends⟩ :=
    solve_conducted engine inst config p p₀ l₀ hgiven
  -- Given a learner, whether one is asked is just whether the run infers.
  have hasks : asks config learner? = config.infer := by
    unfold asks
    cases hinfer : config.infer with
    | false => rfl
    | true => exact hgiven hinfer
  have horder : (Round.reductions rounds).map (·.clause) <+: Splitter.order inst config := by
    rw [hbooks.stands.clauses]
    exact List.take_prefix _ _
  have hdue := hbooks.due
  have htells := hends.tells hbooks
  rw [hasks] at hdue
  rw [hsolve]
  refine ⟨rounds, hbooks.stands.made, hbooks.lessons, horder, hbooks.agenda, hdue,
    fun reason => ?_, htells.failed, htells.model, htells.noModel⟩
  rw [hbooks.refutes_iff]
  exact htells.unsat reason

/-- A preprocessor that keeps a list of its calls, and hands back the instance itself. -/
def listing : Preprocessor (List (Int × List Nat)) where
  reduce _ clause excluded := do
    modify fun v => { v with own := v.own ++ [(clause, excluded)] }
    pure .whole

/-- A learner that keeps a list of what it was told to be known. It finds a contradiction as soon as
something is known. -/
def doubting : Learner (List Accumulator) where
  solve _ background := do
    modify fun v => { v with own := v.own ++ [background] }
    pure (if background.isEmpty then .candidate [(0, .verum)] else .unsat "by learner")

/-- The second of three clauses is found to be contradictory. The third one is not isolated. -/
theorem trace_of_solve_doubting :
    (SplitConfig.default.infer = true → (some doubting).isSome = true) ∧
      ∃ rounds, Trace Engine.literal Splitter.ranked .default listing (some doubting)
        [] ⟨[(3, []), (2, [3])], 0⟩ [] ⟨[[], [(0, [])]], Holds.next (Holds.next 0)⟩ rounds
        (.ok (.unsat "by learner")) := by
  have hgiven : SplitConfig.default.infer = true → (some doubting).isSome = true := fun _ => rfl
  have htrace :=
    trace_of_solve Engine.literal Splitter.ranked .default listing (some doubting) [] [] hgiven
  have hstart : Splitter.start Splitter.ranked .default = .active [1, 2, 3] 3 :=
    Splitter.start_of_pairwise rfl (by decide) (by decide)
  unfold Horn.solve create Splitter.create at htrace
  rw [hstart] at htrace
  exact ⟨hgiven, htrace⟩

end SplitState
end Horn
