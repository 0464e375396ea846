import Horn.Proofs.Candidates
import Horn.Proofs.Split.Splitter
import Horn.Split.Loop

/-!
# Handling a part

What the split loop makes of a part that has been produced (`SplitState.Handled`). A part that
preprocessing has decided is merged or ends the loop. Any other part is handed to the learner
(`SplitState.Asks`, which keeps the very call): an unsatisfiable part ends the loop, and from a
candidate the map `Instance.collected` is absorbed.

`handled_of_handle` says that a part that is handled without failure is handled so, and
`handle_runs` that nothing fails when the learner's answer is usable.
-/

namespace Horn

variable {π κ : Type}

/-! ### What is gathered from a candidate -/

namespace Instance

/-- What a candidate for a part amounts to: its completion, which is simplified in place if nobody
holds the part, and the part after that. -/
def gathered (engine : Engine) (left : Instance) (candidate : Definitions) :
    Except Fault (Definitions × Instance) :=
  (left.definitionsFrom candidate).bind fun defs =>
    if left.isExclusive then
      (((simplifyInPlace engine defs).exec left).1).map
        (·, ((simplifyInPlace engine defs).exec left).2.1)
    else .ok (defs, left)

/-- The map that is gathered is the one that is collected, provided that the part only remembers
right expansions. -/
theorem map_gathered (engine : Engine) {left : Instance}
    (h : left.isExclusive = true → left.Remembers engine.callable left.expansions)
    (candidate : Definitions) :
    (left.gathered engine candidate).map (·.1) = left.collected engine candidate := by
  unfold gathered collected
  cases left.definitionsFrom candidate with
  | error e => rfl
  | ok defs =>
    dsimp only [Except.bind]
    split
    · next hex =>
      rw [← exec_simplifyInPlace engine defs (h hex)]
      cases ((simplifyInPlace engine defs).exec left).1 <;> rfl
    · rfl

end Instance

namespace SplitState

/-! ### The hold on the top-level instance -/

/-- The top-level instance has a hold that is none of the collaborators': the splitter's. -/
def HoldsTop (s : SplitState π κ) : Prop :=
  s.splitter.HeldBesides (1 + s.learner.holds.onTop s.parts)

/-- While the splitter holds the instance, somebody does. -/
theorem HoldsTop.holders_ne_zero {s : SplitState π κ} (h : s.HoldsTop) :
    s.splitter.top.holders ≠ 0 := by
  unfold HoldsTop Splitter.HeldBesides at h
  omega

/-- A call of the learner leaves the holds of others on the top-level instance. -/
theorem HoldsTop.taught {s : SplitState π κ} (h : s.HoldsTop) (reduced : Option Instance)
    (v : Visitor κ) : (s.taught reduced v).HoldsTop := by
  unfold HoldsTop Splitter.HeldBesides at h ⊢
  have hbefore : s.learner.holds.next.onTop (reduced :: s.parts) = s.learner.holds.onTop s.parts :=
    Holds.onTop_next _ _ _
  have hafter : (s.taught reduced v).learner.holds.onTop (s.taught reduced v).parts =
      v.holds.onTop (reduced :: s.parts) :=
    Holds.onTop_congr (Holds.map_isNone_settle _ _ _) v.holds
  have hroom : 1 + s.splitter.preprocessor.holds.last +
      s.learner.holds.next.onTop (reduced :: s.parts) ≤ s.splitter.top.holders := by omega
  have hle := Instance.le_rehold (v.holds.onTop (reduced :: s.parts)) hroom
  rw [hafter]
  change _ + s.splitter.preprocessor.holds.last ≤ (s.splitter.top.rehold _ _).holders
  omega

/-! ### The learner -/

/-- The produced part that is left to the learner. -/
def ofPart : Option Instance → Reduced
  | none => .whole
  | some inst => .sub inst

/-- The learner is asked about a part; with its answer and the next world. -/
def Asks (learner : Learner κ) (reduced : Option Instance) (w : World (SplitState π κ))
    (answer : Except Fault Learned) (w' : World (SplitState π κ)) : Prop :=
  (Act.info .splitting "Starting learning..." >>= fun _ => runLearner learner reduced).runFrom w =
    (.ok answer, w')

/-- Whatever the learner does, it only changes its own state, and its holds. -/
theorem exists_asks (learner : Learner κ) (reduced : Option Instance)
    (w : World (SplitState π κ)) : ∃ answer w', Asks learner reduced w answer w' := by
  unfold Asks runLearner
  exact ⟨_, _, rfl⟩

theorem Asks.spec {learner : Learner κ} {reduced : Option Instance} {w w' : World (SplitState π κ)}
    {answer : Except Fault Learned} (h : Asks learner reduced w answer w') :
    w'.1 = w.1.taught reduced w'.1.learner := by
  unfold Asks runLearner at h
  cases h
  rfl

/-- Asking the learner keeps the problem. -/
theorem Asks.keeps {learner : Learner κ} {reduced : Option Instance}
    {w w' : World (SplitState π κ)} {answer : Except Fault Learned}
    (h : Asks learner reduced w answer w') :
    w.1.splitter.Keeps w'.1.splitter ∧ w'.1.splitter.progress = w.1.splitter.progress ∧
      w'.1.candidates = w.1.candidates := by
  rw [h.spec]
  exact ⟨⟨rfl, rfl, rfl, rfl⟩, rfl, rfl⟩

/-- The part as the learner leaves it. -/
theorem lastPart_taught (s : SplitState π κ) (reduced : Option Instance) (v : Visitor κ) :
    (s.taught reduced v).lastPart =
      (s.given reduced).rehold (s.learner.holds.next.onLast (reduced :: s.parts))
        (v.holds.onLast (reduced :: s.parts)) := by
  cases reduced <;> rfl

/-- The part as the learner leaves it has the same predicates. -/
theorem Asks.preds_lastPart {learner : Learner κ} {reduced : Option Instance}
    {w w' : World (SplitState π κ)} {answer : Except Fault Learned}
    (h : Asks learner reduced w answer w') :
    w'.1.lastPart.preds = (w.1.given reduced).preds := by
  rw [h.spec, lastPart_taught]
  rfl

/-- A part that nobody holds when the learner has returned is a new one, and it has not come to
remember anything. -/
theorem Asks.remembers {learner : Learner κ} {reduced : Option Instance}
    {w w' : World (SplitState π κ)} {answer : Except Fault Learned}
    (h : Asks learner reduced w answer w') (hheld : w.1.HoldsTop) {callable : Callable}
    (hmem : ∀ part, reduced = some part → part.Remembers callable part.expansions) :
    w'.1.lastPart.isExclusive = true →
      w'.1.lastPart.Remembers callable w'.1.lastPart.expansions := by
  intro hex
  have hpreds := h.preds_lastPart
  rw [h.spec] at hex hpreds ⊢
  cases reduced with
  | none =>
    -- The splitter holds the instance: somebody does.
    have hpos := (hheld.taught none w'.1.learner).holders_ne_zero
    rw [Instance.isExclusive, beq_iff_eq] at hex
    exact absurd hex hpos
  | some part => exact (hmem part rfl).congr hpreds.symm

/-! ### Collecting a candidate -/

/-- Recording a map of definitions absorbs it. -/
theorem merge_ok {engine : Engine} {model : Definitions} {w w' : World (SplitState π κ)}
    (h : (merge engine model).runFrom w = (.ok (), w')) :
    w'.1 = { w.1 with
      candidates := w.1.candidates.absorb engine w.1.splitter.top model } := by
  unfold merge at h
  -- Merging works on the accumulator only.
  rw [Act.runFrom_bind_of_ok (Act.runFrom_get w), Act.runFrom_zoom] at h
  obtain ⟨hr, rfl⟩ := Prod.mk.inj h
  dsimp only
  rw [Accumulator.merge_ok (Prod.ext hr rfl)]

/-- Recording a map only changes the accumulator. -/
theorem merge_frame (engine : Engine) (model : Definitions) (w : World (SplitState π κ)) :
    ∃ r m log, (merge engine model).runFrom w = (r, { w.1 with candidates := m }, log) := by
  unfold merge
  rw [Act.runFrom_bind_of_ok (Act.runFrom_get w), Act.runFrom_zoom]
  exact ⟨_, _, _, rfl⟩

/-- Recording a map for handles of predicates does not fail. -/
theorem merge_runs {engine : Engine} {model : Definitions} {w : World (SplitState π κ)}
    (h : ∀ e ∈ model, ∃ b, w.1.splitter.top.isKnown e.1 = .ok b) :
    ∃ w', (merge engine model).runFrom w = (.ok (), w') := by
  obtain ⟨log, hlog⟩ : ∃ log,
      (Accumulator.merge engine w.1.splitter.top model).runFrom (w.1.candidates, w.2) =
        (.ok (), w.1.candidates.absorb engine w.1.splitter.top model, log) :=
    Accumulator.merge_runs h _
  unfold merge
  rw [Act.runFrom_bind_of_ok (Act.runFrom_get w), Act.runFrom_zoom, hlog]
  exact ⟨_, rfl⟩

/-- The map that is recorded for a candidate, before it is recorded. -/
def prepare (engine : Engine) (part : Instance) (candidate : Definitions) :
    Act (SplitState π κ) (Definitions × Instance) := do
  Act.info .splitting "sat"
  let model ← Act.ofExcept (part.definitionsFrom candidate)
  if part.isExclusive then do
    let (r, part', log) := (Instance.simplifyInPlace engine model).exec part
    log.forM Act.write
    let model ← Act.ofExcept r
    pure (model, part')
  else do
    Act.debug .splitting (part.title ++ " is shared, merging raw candidate")
    pure (model, part)

theorem collect_eq (engine : Engine) (part : Instance) (candidate : Definitions) :
    collect engine part candidate = (do
      let (model, part) ← prepare engine part candidate
      merge engine model
      pure part : Act (SplitState π κ) Instance) := by
  unfold collect prepare
  simp only [bind_assoc]
  congr
  funext _
  congr
  funext model
  split <;> simp only [bind_assoc, pure_bind]

/-- Preparing a candidate gathers it, and changes nothing. -/
theorem runFrom_prepare_eq (engine : Engine) (part : Instance) (candidate : Definitions)
    (w : World (SplitState π κ)) : ∃ log, (prepare engine part candidate).runFrom w =
      (part.gathered engine candidate, w.1, log) := by
  unfold prepare Instance.gathered
  rw [Act.runFrom_bind_of_ok (Act.runFrom_info _ _ w)]
  cases part.definitionsFrom candidate with
  | error e => exact ⟨_, rfl⟩
  | ok defs =>
    rw [Act.runFrom_bind_of_ok (Act.runFrom_ofExcept _ _)]
    dsimp only [Except.bind]
    -- Only an exclusive part is simplified in place; its log is then replayed.
    split
    · rcases (Instance.simplifyInPlace engine defs).exec part with ⟨r, part', log⟩
      dsimp only
      rw [Act.runFrom_bind_of_ok (Act.runFrom_forM_write log _)]
      refine ⟨w.2 ++ [⟨.info, .splitting, "sat", false⟩] ++ log, ?_⟩
      cases r <;> rfl
    · exact ⟨_, rfl⟩

/-- If the part remembers right expansions only, this gives what is to be collected. -/
theorem runFrom_prepare (engine : Engine) {part : Instance}
    (hmem : part.isExclusive = true → part.Remembers engine.callable part.expansions)
    (candidate : Definitions) (w : World (SplitState π κ)) :
    ∃ part' log, (prepare engine part candidate).runFrom w =
      ((part.collected engine candidate).map (·, part'), w.1, log) := by
  obtain ⟨log, hprep⟩ := runFrom_prepare_eq engine part candidate w
  rw [hprep, ← part.map_gathered engine hmem candidate]
  cases part.gathered engine candidate with
  | error e => exact ⟨part, log, rfl⟩
  | ok r => exact ⟨r.2, log, rfl⟩

/-- Collecting a candidate only changes the accumulator. -/
theorem collect_frame (engine : Engine) (part : Instance) (candidate : Definitions)
    (w : World (SplitState π κ)) : ∃ r m log,
      (collect engine part candidate).runFrom w = (r, { w.1 with candidates := m }, log) := by
  obtain ⟨log, hprep⟩ := runFrom_prepare_eq engine part candidate w
  rw [collect_eq, Act.runFrom_bind, hprep]
  cases part.gathered engine candidate with
  | error e => exact ⟨_, w.1.candidates, log, rfl⟩
  | ok gathered =>
    obtain ⟨r, m, log', hmerge⟩ := merge_frame engine gathered.1 (w.1, log)
    dsimp only
    rw [Act.runFrom_bind, hmerge]
    cases r <;> exact ⟨_, m, log', rfl⟩

/-- **Collecting a candidate** absorbs what is collected from it. -/
theorem collect_ok {engine : Engine} {part part' : Instance}
    (hmem : part.isExclusive = true → part.Remembers engine.callable part.expansions)
    {candidate : Definitions} {w w' : World (SplitState π κ)}
    (h : (collect engine part candidate).runFrom w = (.ok part', w')) :
    ∃ defs, part.collected engine candidate = .ok defs ∧ w'.1 = { w.1 with
      candidates := w.1.candidates.absorb engine w.1.splitter.top defs } := by
  obtain ⟨left, log, hprep⟩ := runFrom_prepare engine hmem candidate w
  rw [collect_eq, Act.runFrom_bind, hprep] at h
  cases hdefs : part.collected engine candidate with
  -- Only a candidate that can be completed gets to the merge.
  | error e =>
    rw [hdefs] at h
    cases h
  | ok defs =>
    rw [hdefs] at h
    obtain ⟨_, w₁, hmerge, h⟩ := Act.runFrom_bind_ok.1 h
    cases h
    have hw := merge_ok hmerge
    exact ⟨defs, rfl, hw⟩

/-- Collecting does not fail if something is collected, for handles of predicates only. -/
theorem collect_runs {engine : Engine} {part : Instance}
    (hmem : part.isExclusive = true → part.Remembers engine.callable part.expansions)
    {candidate defs : Definitions} (hdefs : part.collected engine candidate = .ok defs)
    {w : World (SplitState π κ)} (h : ∀ e ∈ defs, ∃ b, w.1.splitter.top.isKnown e.1 = .ok b) :
    ∃ part' w', (collect engine part candidate).runFrom w = (.ok part', w') := by
  obtain ⟨left, log, hprep⟩ := runFrom_prepare engine hmem candidate w
  obtain ⟨w', hmerge⟩ : ∃ w', (merge engine defs).runFrom (w.1, log) = (.ok (), w') := merge_runs h
  -- The completed candidate is merged into the same accumulator.
  rw [hdefs] at hprep
  rw [collect_eq, Act.runFrom_bind_of_ok hprep]
  exact ⟨left, w', Act.runFrom_bind_of_ok hmerge _⟩

/-! ### All that handling can do -/

/-- What is made of a part. -/
inductive Handled (engine : Engine) (learner : Learner κ) (w : World (SplitState π κ)) :
    Reduced → Option String → World (SplitState π κ) → Prop
  | refuted : Handled engine learner w (.trivial none) (some "by preprocessing") w
  | decided {model : Definitions} {w' : World (SplitState π κ)} :
      w.1.splitter.Keeps w'.1.splitter → w'.1.splitter.progress = w.1.splitter.progress →
      w'.1.candidates = Accumulator.absorb engine w.1.splitter.top w.1.candidates model →
      Handled engine learner w (.trivial (some model)) none w'
  | unsat {r : Reduced} {reduced : Option Instance} {reason : String}
      {w₁ w' : World (SplitState π κ)} : r = ofPart reduced →
      Asks learner reduced w (.ok (.unsat reason)) w₁ →
      w.1.splitter.Keeps w'.1.splitter → Handled engine learner w r (some reason) w'
  | learned {r : Reduced} {reduced : Option Instance} {candidate defs : Definitions}
      {w₁ w' : World (SplitState π κ)} : r = ofPart reduced →
      Asks learner reduced w (.ok (.candidate candidate)) w₁ →
      w₁.1.lastPart.collected engine candidate = .ok defs →
      w.1.splitter.Keeps w'.1.splitter → w'.1.splitter.progress = w.1.splitter.progress →
      w'.1.candidates = Accumulator.absorb engine w.1.splitter.top w.1.candidates defs →
      Handled engine learner w r none w'

/-- The state when a part has been stored in place of the one that the learner was called on. -/
def stored (s : SplitState π κ) (reduced : Option Instance) (part : Instance) : SplitState π κ :=
  { s with parts := reduced.map (fun _ => part) :: s.parts.tail }

/-- The second half of handling a part, when the learner has given an answer. -/
def conclude (engine : Engine) (reduced : Option Instance) :
    Except Fault Learned → Act (SplitState π κ) (Option String)
  | .error e => throw e
  | .ok (.unsat reason) => do
    Act.debugTimed .splitting "learner"
    pure (some reason)
  | .ok (.candidate candidate) => do
    Act.debugTimed .splitting "learner"
    let part ← collect engine (← get).lastPart candidate
    modify fun s => s.stored reduced part
    pure none

/-- Learning is asking the learner and drawing the conclusion. -/
theorem runFrom_learn {engine : Engine} {learner : Learner κ} {reduced : Option Instance}
    {w w₁ : World (SplitState π κ)} {answer : Except Fault Learned}
    (h : Asks learner reduced w answer w₁) :
    (learn engine learner reduced).runFrom w = (conclude engine reduced answer).runFrom w₁ := by
  unfold learn
  unfold Asks at h
  -- Both sides write the same record before the learner is called.
  rw [Act.runFrom_bind_of_ok (Act.runFrom_info _ _ w)] at h ⊢
  rw [Act.runFrom_bind_of_ok h]
  rcases answer with e | ⟨candidate⟩ | ⟨reason⟩ <;> rfl

/-- Drawing the conclusion leaves the splitter its hold. -/
theorem Asks.holdsTop_conclude {engine : Engine} {learner : Learner κ} {reduced : Option Instance}
    {w w₁ : World (SplitState π κ)} {answer : Except Fault Learned}
    (h : Asks learner reduced w answer w₁) (hheld : w.1.HoldsTop) :
    HoldsTop ((conclude engine reduced answer).runFrom w₁).2.1 := by
  have hspec := h.spec
  have hheld₁ : w₁.1.HoldsTop := by
    rw [hspec]
    exact hheld.taught _ _
  rcases answer with e | ⟨candidate⟩ | ⟨reason⟩
  · exact hheld₁
  · unfold conclude
    rw [Act.runFrom_bind_of_ok (Act.runFrom_debugTimed _ _ w₁),
      Act.runFrom_bind_of_ok (Act.runFrom_get _), Act.runFrom_bind]
    obtain ⟨r, m, log, hcollect⟩ := collect_frame engine w₁.1.lastPart candidate
      (w₁.1, w₁.2 ++ [⟨.debug, .splitting, "learner", true⟩])
    rw [hcollect]
    cases r with
    | error e => exact hheld₁
    | ok part =>
      -- The part that is stored takes the place of one that is the top-level instance, or is not.
      have hparts : w₁.1.learner.holds.onTop (reduced.map (fun _ => part) :: w₁.1.parts.tail) =
          w₁.1.learner.holds.onTop w₁.1.parts := by
        rw [hspec]
        exact Holds.onTop_congr (by simp [taught, Holds.settle]) _
      unfold HoldsTop at hheld₁ ⊢
      rw [← hparts] at hheld₁
      exact hheld₁
  · exact hheld₁

/-- **The hold of the splitter.** Handling a part leaves it, whether or not that fails. -/
theorem holdsTop_handle {engine : Engine} {config : SplitConfig} {learner? : Option (Learner κ)}
    {r : Reduced} {w w' : World (SplitState π κ)} {answer : Except Fault (Option String)}
    (hhandle : (handle engine config learner? r).runFrom w = (answer, w')) (h : w.1.HoldsTop) :
    w'.1.HoldsTop := by
  suffices hend : HoldsTop ((handle engine config learner? r).runFrom w).2.1 by
    rw [hhandle] at hend
    exact hend
  have hpart : ∀ reduced : Option Instance,
      HoldsTop ((handle.part engine config learner? reduced).runFrom w).2.1 := by
    intro reduced
    unfold handle.part
    split
    · next learner _ =>
      obtain ⟨answer, w₁, hask⟩ := exists_asks learner reduced w
      rw [runFrom_learn hask]
      exact hask.holdsTop_conclude h
    · exact h
  rcases r with _ | inst | _ | model
  · exact hpart none
  · exact hpart (some inst)
  · exact h
  · obtain ⟨r, m, log, hmerge⟩ := merge_frame engine model
      (w.1, w.2 ++ [⟨.info, .splitting, "sat by preproc", false⟩])
    unfold handle
    dsimp only
    rw [Act.runFrom_bind_of_ok (Act.runFrom_info _ _ w), Act.runFrom_bind, hmerge]
    cases r <;> exact h

/-- Learning handles a part. -/
theorem handled_of_learn {engine : Engine} {learner : Learner κ} {reduced : Option Instance}
    {w w' : World (SplitState π κ)} {answer : Option String} (hheld : w.1.HoldsTop)
    (hmem : ∀ part, reduced = some part → part.Remembers engine.callable part.expansions)
    (h : (learn engine learner reduced).runFrom w = (.ok answer, w')) :
    Handled engine learner w (ofPart reduced) answer w' := by
  obtain ⟨said, w₁, hask⟩ := exists_asks learner reduced w
  obtain ⟨hkeeps, hprog, hcand⟩ := hask.keeps
  rw [runFrom_learn hask] at h
  -- The three ways in which the learner can return.
  rcases said with e | ⟨candidate⟩ | ⟨reason⟩
  · cases h
  · unfold conclude at h
    rw [Act.runFrom_bind_of_ok (Act.runFrom_debugTimed _ _ w₁),
      Act.runFrom_bind_of_ok (Act.runFrom_get _)] at h
    -- A candidate: what is collected from it is absorbed.
    obtain ⟨part', w₂, hcollect, h⟩ := Act.runFrom_bind_ok.1 h
    obtain ⟨defs, hdefs, hw₂⟩ := collect_ok (hask.remembers hheld hmem) hcollect
    dsimp only at hw₂
    rw [hcand, Accumulator.absorb_congr hkeeps.preds] at hw₂
    -- What remains is to store the part.
    cases h
    refine .learned rfl hask hdefs ?_ ?_ ?_
    · change w.1.splitter.Keeps w₂.1.splitter
      rw [hw₂]
      exact hkeeps
    · change w₂.1.splitter.progress = _
      rw [hw₂]
      exact hprog
    · change w₂.1.candidates = _
      rw [hw₂]
  · cases h
    exact .unsat rfl hask hkeeps

/-- **The second half of a round**, when the loop infers and has a learner. -/
theorem handled_of_handle {engine : Engine} {config : SplitConfig} (hinfer : config.infer = true)
    {learner : Learner κ} {r : Reduced} {w w' : World (SplitState π κ)} {answer : Option String}
    (hheld : w.1.HoldsTop)
    (hmem : ∀ part, r = .sub part → part.Remembers engine.callable part.expansions)
    (h : (handle engine config (some learner) r).runFrom w = (.ok answer, w')) :
    Handled engine learner w r answer w' := by
  unfold handle handle.part at h
  rw [hinfer] at h
  -- The instance, a sub-instance, a contradiction, or a partial model.
  rcases r with _ | inst | _ | model
  · exact handled_of_learn hheld (fun _ hsome => by cases hsome) h
  · exact handled_of_learn hheld (fun part hsome => hmem part (Option.some.inj hsome ▸ rfl)) h
  · cases h
    exact .refuted
  · dsimp only at h
    rw [Act.runFrom_bind_of_ok (Act.runFrom_info _ _ w)] at h
    obtain ⟨_, w₁, hmerge, h⟩ := Act.runFrom_bind_ok.1 h
    cases h
    have hw := merge_ok hmerge
    dsimp only at hw
    refine .decided ?_ ?_ ?_
    · rw [hw]
      exact Splitter.Keeps.refl _
    · rw [hw]
    · rw [hw]

/-- An answer that the loop can go on with: no failure, and a candidate that can be collected. -/
def Usable (engine : Engine) (top left : Instance) (answer : Except Fault Learned) : Prop :=
  ∃ a, answer = .ok a ∧ ∀ candidate, a = .candidate candidate →
    ∃ defs, left.collected engine candidate = .ok defs ∧ ∀ e ∈ defs, ∃ b, top.isKnown e.1 = .ok b

/-- Learning does not fail if the answer is usable. -/
theorem learn_runs {engine : Engine} {learner : Learner κ} {reduced : Option Instance}
    {w : World (SplitState π κ)} (hheld : w.1.HoldsTop)
    (hmem : ∀ part, reduced = some part → part.Remembers engine.callable part.expansions)
    (husable : ∀ answer w₁, Asks learner reduced w answer w₁ →
      Usable engine w.1.splitter.top w₁.1.lastPart answer) :
    ∃ answer w', (learn engine learner reduced).runFrom w = (.ok answer, w') := by
  obtain ⟨said, w₁, hask⟩ := exists_asks learner reduced w
  obtain ⟨a, rfl, hcollected⟩ := husable said w₁ hask
  rw [runFrom_learn hask]
  rcases a with candidate | reason
  · obtain ⟨defs, hdefs, hknown⟩ := hcollected candidate rfl
    obtain ⟨hkeeps, -, -⟩ := hask.keeps
    unfold conclude
    rw [Act.runFrom_bind_of_ok (Act.runFrom_debugTimed _ _ w₁),
      Act.runFrom_bind_of_ok (Act.runFrom_get _)]
    obtain ⟨part', w₂, hcollect⟩ : ∃ part' w₂, (collect engine w₁.1.lastPart candidate).runFrom
        (w₁.1, w₁.2 ++ [⟨.debug, .splitting, "learner", true⟩]) = (.ok part', w₂) := by
      -- The predicates of the top-level instance are still known.
      refine collect_runs (hask.remembers hheld hmem) hdefs fun e he => ?_
      unfold Instance.isKnown Instance.pred at hknown ⊢
      rw [hkeeps.preds]
      exact hknown e he
    rw [Act.runFrom_bind_of_ok hcollect]
    exact ⟨_, _, rfl⟩
  · exact ⟨_, _, rfl⟩

/-- Handling a part does not fail if a partial model is one of predicates and the learner's answer
is usable. -/
theorem handle_runs {engine : Engine} {config : SplitConfig} (hinfer : config.infer = true)
    {learner : Learner κ} {r : Reduced} {w : World (SplitState π κ)} (hheld : w.1.HoldsTop)
    (hmem : ∀ part, r = .sub part → part.Remembers engine.callable part.expansions)
    (htrivial : ∀ model, r = .trivial (some model) →
      ∀ e ∈ model, ∃ b, w.1.splitter.top.isKnown e.1 = .ok b)
    (husable : ∀ reduced answer w₁, r = ofPart reduced → Asks learner reduced w answer w₁ →
      Usable engine w.1.splitter.top w₁.1.lastPart answer) :
    ∃ answer w', (handle engine config (some learner) r).runFrom w = (.ok answer, w') := by
  unfold handle handle.part
  rw [hinfer]
  -- Only the learner and the merge of a partial model could fail.
  rcases r with _ | inst | _ | model
  · exact learn_runs hheld (fun _ hsome => by cases hsome)
      fun answer w₁ h => husable none answer w₁ rfl h
  · exact learn_runs hheld (fun part hsome => hmem part (Option.some.inj hsome ▸ rfl))
      fun answer w₁ h => husable (some inst) answer w₁ rfl h
  · exact ⟨_, _, rfl⟩
  · obtain ⟨w', hmerge⟩ : ∃ w', (merge engine model).runFrom
        (w.1, w.2 ++ [⟨.info, .splitting, "sat by preproc", false⟩]) = (.ok (), w') :=
      merge_runs (w := (w.1, w.2 ++ [_])) (htrivial model rfl)
    dsimp only
    rw [Act.runFrom_bind_of_ok (Act.runFrom_info _ _ w)]
    exact ⟨_, _, Act.runFrom_bind_of_ok hmerge _⟩

end SplitState
end Horn
