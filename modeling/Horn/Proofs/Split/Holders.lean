import Horn.Proofs.Split.Rounds

/-!
# Holders in the split loop

The splitter holds the instance while it is open, and a part is held while the learner works on
it. A collaborator may go on holding what it was given, and release it in any later call.
`solve_balanced` says that nothing else is left in the end, whatever the collaborators do: an
instance has the holders that it had and the outstanding holds of the collaborators. Every hold of
the loop is released once, no release fails, and the instance has not been changed.

Only a part that nobody holds is changed in place (`Lesson.Settled`): the candidate for it is
simplified, and the part remembers the expansions. The instance itself is held by the splitter, so
that a candidate for it is recorded as it is.
-/

namespace Horn

variable {π κ : Type}

namespace Lesson

/-- What becomes of a part on which the learner has been called. -/
structure Settled (engine : Engine) (top : Instance) (l : Lesson) : Prop where
  /-- The hold for the call can be released. -/
  released : (l.part.retain.rehold l.before l.after).release = .ok l.left
  /-- All but the memory stays as the learner leaves it. -/
  kept : l.kept engine top = { l.left with expansions := (l.kept engine top).expansions }
  /-- A candidate that is recorded has been simplified in place if nobody holds the part. -/
  inPlace : ∀ candidate model, l.answer = .ok (.candidate candidate) →
    l.finding engine top = .ok (.learned model) →
    ∃ defs, l.left.definitionsFrom candidate = .ok defs ∧
      (l.left.holders = 0 → ∃ log, (Instance.simplifyInPlace engine defs).exec l.left =
        (.ok model, l.kept engine top, log)) ∧
      (l.left.holders ≠ 0 → model = defs)
  /-- A part that somebody holds has not been changed. -/
  shared : l.left.holders ≠ 0 → l.kept engine top = l.left

/-- What is learned from a candidate has been gathered from it. -/
theorem gathered_of_learned {engine : Engine} {top : Instance} {l : Lesson}
    {candidate model : Definitions} (hanswer : l.answer = .ok (.candidate candidate))
    (h : l.finding engine top = .ok (.learned model)) :
    l.left.gathered engine candidate = .ok (model, l.kept engine top) := by
  have hconclusion : l.conclusion engine top = _ := conclusion_of_candidate hanswer
  rw [finding_of_conclusion hconclusion] at h
  rw [kept_of_conclusion hconclusion]
  cases hrecorded : Instance.recorded engine top l.left candidate with
  | error e =>
    rw [hrecorded] at h
    cases h
  | ok r =>
    rw [hrecorded] at h
    cases h
    exact Instance.gathered_of_recorded hrecorded

/-- The hold for the call is released, if those that the learner had before are on the part. -/
theorem release_eq {l : Lesson} {base : Instance} {n : Nat}
    (h : l.part = base.held (n + l.before)) :
    (l.part.retain.rehold l.before l.after).release = .ok l.left := by
  have hretained : l.part.retain = base.held (1 + n + l.before) := by
    have hsum : n + l.before + 1 = 1 + n + l.before := by omega
    rw [h, ← hsum]
    exact base.held_held _ 1
  rw [hretained, Instance.rehold_held, Nat.add_assoc, Instance.release_held, left, h,
    Instance.rehold_held]

/-- **After the call of the learner.** Whatever it answers, its part is left as it should be. -/
theorem settled (engine : Engine) (top : Instance) {l : Lesson} {base : Instance} {n : Nat}
    (h : l.part = base.held (n + l.before)) : l.Settled engine top := by
  refine ⟨release_eq h, l.kept_eq engine top, ?_, ?_⟩
  -- A candidate is simplified in place exactly if the part is not held.
  · intro candidate model hanswer hfinding
    obtain ⟨defs, hdefs, hcases⟩ :=
      Instance.gathered_ok (gathered_of_learned hanswer hfinding)
    refine ⟨defs, hdefs, fun hzero => ?_, fun hheld => ?_⟩
    · rcases hcases with ⟨-, hexec⟩ | ⟨hheld, -⟩
      · exact hexec
      · exact absurd hzero hheld
    · rcases hcases with ⟨hzero, -⟩ | ⟨-, hmodel, -⟩
      · exact absurd hzero hheld
      · exact hmodel
  -- A held part is not simplified in place, so nothing at all changes in it.
  · intro hheld
    rcases l.kept_cases engine top with hleft | ⟨candidate, model, -, hgathered⟩
    · exact hleft
    · obtain ⟨defs, -, ⟨hzero, -⟩ | ⟨-, -, hpart⟩⟩ := Instance.gathered_ok hgathered
      · exact absurd hzero hheld
      · exact hpart

end Lesson

/-- The part of a call of the learner is the part of its round. -/
theorem Round.Due.part_eq {engine : Engine} {inst : Instance} {asks : Bool} {before : List Round}
    {r : Round} (h : r.Due engine inst asks before) {l : Lesson} (hl : r.lesson = some l) :
    r.part? inst before = some l.part := by
  have hlesson := h.lesson
  rw [hl, Option.map_some] at hlesson
  split at hlesson
  · obtain ⟨part, hpart, heq⟩ := Option.map_eq_some_iff.1 hlesson.symm
    rw [hpart, (Prod.mk.inj heq).1]
  · cases hlesson

/-- The holds that the learner has on a part from before are on it, and one more if it is the
instance itself: the splitter's. -/
theorem Round.Due.exists_held {engine : Engine} {inst : Instance} {asks : Bool}
    {before : List Round} {r : Round} (h : r.Due engine inst asks before) {l : Lesson}
    (hl : r.lesson = some l) : ∃ (base : Instance) (n : Nat), l.part = base.held (n + l.before) ∧
      (r.produced = .ok .whole → n ≠ 0) := by
  have hpart := h.part_eq hl
  have hbefore := (h.holds l hl).1
  rw [Round.called_concat, Round.called?, hl] at hbefore
  rw [Round.part?] at hpart
  split at hpart
  · next hwhole =>
    rw [hwhole] at hbefore
    have hheld : l.before = (Lesson.heldAfter (Round.lessons before)).onTop (Round.called before) :=
      hbefore.trans (Holds.onTop_next _ none _)
    rw [Round.holdsOnTop_concat_none, ← hheld, ← Nat.add_assoc] at hpart
    refine ⟨inst, _, (Option.some.inj hpart).symm, fun _ => ?_⟩
    omega
  · next part hsub =>
    rw [hsub] at hbefore
    -- The part is a new one, and the learner has no holds on it.
    have hzero : l.before = 0 := hbefore
    refine ⟨l.part, 0, ?_, fun hwhole => ?_⟩
    · rw [hzero]
      rfl
    · rw [hsub] at hwhole
      cases hwhole
  · cases hpart

/-- The learner never leaves the instance without a holder: the splitter holds it. -/
theorem Round.Due.holders_ne_zero {engine : Engine} {inst : Instance} {asks : Bool}
    {before : List Round} {r : Round} (h : r.Due engine inst asks before) {l : Lesson}
    (hl : r.lesson = some l) (hwhole : r.produced = .ok .whole) : l.left.holders ≠ 0 := by
  obtain ⟨base, n, hpart, hpos⟩ := h.exists_held hl
  have hn := hpos hwhole
  have hholders : l.left.holders = base.holders + (n + l.after) := by
    rw [Lesson.left, hpart, Instance.rehold_held]
    rfl
  omega

namespace SplitState

/-- The holders after a run of the split loop, and what has been changed in place. -/
structure Balanced (engine : Engine) (inst : Instance) (config : SplitConfig) (p : Preprocessor π)
    (learner? : Option (Learner κ)) (p₀ : π) (l₀ : κ) (rounds : List Round) (s : SplitState π κ) :
    Prop where
  /-- These are all calls of the preprocessor, and those of the learner. -/
  reductions : Reduction.Calls p ⟨p₀, 0⟩ (Round.reductions rounds) s.splitter.preprocessor
  lessons : Lesson.Calls learner? ⟨l₀, 0⟩ (Round.lessons rounds) s.learner
  due : ∀ before r after, rounds = before ++ r :: after →
    r.Due engine inst (asks config learner?) before
  /-- The instance is as it was, but for the holds that the collaborators still have on it. -/
  top : s.splitter.top =
    inst.held (s.splitter.preprocessor.holds.last + s.learner.holds.onTop s.parts)
  /-- So are the other parts, but for what they have come to remember. -/
  parts : s.parts = s.learner.holds.upon (Round.parts engine inst rounds)
  settled : ∀ l ∈ Round.lessons rounds, l.Settled engine inst
  /-- A candidate for the instance itself is not simplified in place. -/
  shared : ∀ r ∈ rounds, ∀ l, r.lesson = some l → r.produced = .ok .whole → l.left.holders ≠ 0

variable {engine : Engine} {inst : Instance} {config : SplitConfig} {p : Preprocessor π}
  {learner? : Option (Learner κ)} {p₀ : π} {l₀ : κ} {rounds : List Round}

/-- The holds of the collaborators are those in their states. -/
theorem Conducted.holdsOnTop_eq {s : SplitState π κ}
    (h : Conducted engine inst config p learner? p₀ l₀ rounds s) :
    Round.holdsOnTop rounds =
      s.splitter.preprocessor.holds.last + s.learner.holds.onTop s.parts := by
  rw [Round.holdsOnTop, h.stands.made.last_eq, h.lessons.holds_eq,
    Holds.onTop_congr h.map_isNone]

/-- The books balance when the instance has been let go. -/
theorem Conducted.balanced {s s' : SplitState π κ}
    (h : Conducted engine inst config p learner? p₀ l₀ rounds s)
    (htop : s'.splitter.top = inst.held (Round.holdsOnTop rounds))
    (hpreprocessor : s'.splitter.preprocessor = s.splitter.preprocessor)
    (hlearner : s'.learner = s.learner) (hparts : s'.parts = s.parts) :
    Balanced engine inst config p learner? p₀ l₀ rounds s' := by
  -- Each call of the learner belongs to a round, which is due after those before it.
  have hdue : ∀ r ∈ rounds, ∃ before, r.Due engine inst (asks config learner?) before := by
    intro r hr
    obtain ⟨before, after, hsplit⟩ := List.append_of_mem hr
    exact ⟨before, h.due before r after hsplit⟩
  refine ⟨?_, ?_, h.due, ?_, ?_, fun l hl => ?_, fun r hr l hl hwhole => ?_⟩
  · rw [hpreprocessor]
    exact h.stands.made
  · rw [hlearner]
    exact h.lessons
  · rw [htop, hpreprocessor, hlearner, hparts, h.holdsOnTop_eq]
  · rw [hparts, hlearner]
    exact h.parts
  · obtain ⟨r, hr, hrl⟩ := List.mem_filterMap.1 hl
    obtain ⟨before, hbefore⟩ := hdue r hr
    obtain ⟨base, n, hpart, -⟩ := hbefore.exists_held hrl
    exact Lesson.settled engine inst hpart
  · obtain ⟨before, hbefore⟩ := hdue r hr
    exact hbefore.holders_ne_zero hl hwhole

/-- **Holders.** Every run of the split loop, failing or not, leaves the instance and the parts with
the holders that they had and the outstanding holds of the collaborators. The hold of the splitter
can be released wherever the run has got to. -/
theorem solve_balanced (engine : Engine) (inst : Instance) (config : SplitConfig)
    (p : Preprocessor π) (learner? : Option (Learner κ)) (p₀ : π) (l₀ : κ) :
    (∃ rounds, Balanced engine inst config p learner? p₀ l₀ rounds
        (Horn.solve engine inst config p learner? p₀ l₀).2.1) ∧
      ∃ w, (onSplitter Splitter.close).runFrom
          ((run engine config p learner?).runFrom (create inst config p₀ l₀, [])).2 =
        (.ok (), w) := by
  constructor
  · by_cases hgiven : config.infer = true → learner?.isSome = true
    · obtain ⟨rounds, answer, s, log, hsolve, hbooks, -⟩ :=
        solve_conducted engine inst config p p₀ l₀ hgiven
      rw [hsolve]
      exact ⟨rounds, hbooks.balanced rfl rfl rfl rfl⟩
    · -- Without the learner that is asked for nothing is done.
      have hmissing : (config.infer && learner?.isNone) = true := by
        rw [Classical.not_imp, Bool.not_eq_true, Option.isSome_eq_false_iff] at hgiven
        rw [hgiven.1, hgiven.2]
        rfl
      have hbooks := (underway_create engine inst config p learner? p₀ l₀).books
      unfold Horn.solve
      rw [if_pos hmissing]
      exact ⟨[], hbooks.balanced rfl rfl rfl rfl⟩
  · obtain ⟨rounds, answer, s, log, hrun, hbooks, -⟩ :=
      run_conducted engine inst config p learner? p₀ l₀
    rw [hrun]
    exact ⟨_, Conducted.close (w := (s, log)) hbooks⟩

end SplitState
end Horn
