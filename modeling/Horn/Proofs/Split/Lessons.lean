import Horn.Proofs.Split.Calls
import Horn.Proofs.Split.Run

/-!
# The calls of the learner

A call of the learner is kept with all that was exchanged (`Lesson`), like one of the preprocessor.
What it amounts to can be read off it (`Lesson.finding`): a contradiction, a map that is recorded,
or a failure. So can the part as it is left in the end (`Lesson.kept`).

* `runFrom_collect` says what is collected from a candidate in all cases, failing included.
* `exists_learns` says the same of learning, and `exists_handles` of handling a part, with or
  without the learner: which call is made, what is answered, and all that changes.
-/

namespace Horn

variable {π κ : Type}

/-! ### Candidates -/

namespace Instance

/-- What a candidate for a part amounts to, where the map has to be one of predicates of an
instance. -/
def recorded (engine : Engine) (top left : Instance) (candidate : Definitions) :
    Except Fault (Definitions × Instance) :=
  (left.gathered engine candidate).bind fun r => (top.checkHandles r.1).map fun _ => r

theorem recorded_congr (engine : Engine) {top top' : Instance} (h : top.preds = top'.preds)
    (left : Instance) (candidate : Definitions) :
    recorded engine top left candidate = recorded engine top' left candidate := by
  unfold recorded
  simp only [checkHandles_congr h]

/-- Simplifying in place only changes what is remembered. -/
theorem exec_simplifyInPlace_frame (engine : Engine) (defs : Definitions)
    (inst : Instance) : ((simplifyInPlace engine defs).exec inst).2.1 =
      { inst with expansions := ((simplifyInPlace engine defs).exec inst).2.1.expansions } := by
  unfold simplifyInPlace
  rw [Act.exec_eq, Act.runFrom_bind_of_ok (Act.runFrom_get _), Act.runFrom_bind]
  dsimp only [Act.runFrom_ofExcept]
  rcases inst.simplifyAll engine defs inst.expansions with e | ⟨defs', memory⟩ <;> rfl

/-- What is recorded has been gathered. -/
theorem gathered_of_recorded {engine : Engine} {top left : Instance}
    {candidate : Definitions} {r : Definitions × Instance}
    (h : recorded engine top left candidate = .ok r) : left.gathered engine candidate = .ok r := by
  obtain ⟨r', hgathered, h⟩ := bind_eq_ok.1 h
  cases hcheck : top.checkHandles r'.1 with
  | error e =>
    rw [hcheck] at h
    cases h
  | ok _ =>
    rw [hcheck] at h
    cases h
    exact hgathered

/-- What is gathered from a candidate: it is simplified in place if nobody holds the part. -/
theorem gathered_ok {engine : Engine} {left part : Instance}
    {candidate model : Definitions} (h : left.gathered engine candidate = .ok (model, part)) :
    ∃ defs, left.definitionsFrom candidate = .ok defs ∧
      ((left.holders = 0 ∧
          ∃ log, (simplifyInPlace engine defs).exec left = (.ok model, part, log)) ∨
        (left.holders ≠ 0 ∧ model = defs ∧ part = left)) := by
  obtain ⟨defs, hdefs, h⟩ := bind_eq_ok.1 h
  refine ⟨defs, hdefs, ?_⟩
  -- `gathered` asks whether the part is exclusive; for its holders that is whether there is none.
  split at h
  · next hex =>
    rw [isExclusive, beq_iff_eq] at hex
    rcases hexec : (simplifyInPlace engine defs).exec left with ⟨r, part', log⟩
    rw [hexec] at h
    cases r with
    | error e => cases h
    | ok model' =>
      cases h
      exact .inl ⟨hex, log, rfl⟩
  · next hex =>
    rw [isExclusive, beq_iff_eq] at hex
    cases h
    exact .inr ⟨hex, rfl, rfl⟩

/-- A part of which something is gathered keeps all but its memory. -/
theorem gathered_frame {engine : Engine} {left part : Instance}
    {candidate model : Definitions} (h : left.gathered engine candidate = .ok (model, part)) :
    part = { left with expansions := part.expansions } := by
  obtain ⟨defs, -, ⟨-, log, hexec⟩ | ⟨-, -, rfl⟩⟩ := gathered_ok h
  · have hframe := exec_simplifyInPlace_frame engine defs left
    rw [hexec] at hframe
    exact hframe
  · rfl

end Instance

namespace SplitState

/-- **Recording a map**, in all cases. -/
theorem runFrom_merge (engine : Engine) (model : Definitions) (w : World (SplitState π κ)) :
    ∃ m log, (merge engine model).runFrom w =
        (w.1.splitter.top.checkHandles model, { w.1 with candidates := m }, log) ∧
      (w.1.splitter.top.checkHandles model = .ok () →
        m = w.1.candidates.absorb engine w.1.splitter.top model) := by
  obtain ⟨log, hmerge⟩ :=
    Accumulator.runFrom_merge engine w.1.splitter.top model (w.1.candidates, w.2)
  refine ⟨w.1.candidates.absorb engine w.1.splitter.top
      (Accumulator.reached w.1.splitter.top model), log, ?_,
    fun h => by rw [Accumulator.reached_of_checkHandles h]⟩
  unfold merge
  rw [Act.runFrom_bind_of_ok (Act.runFrom_get w), Act.runFrom_zoom, hmerge]

/-- **Collecting a candidate**, in all cases. -/
theorem runFrom_collect (engine : Engine) (part : Instance) (candidate : Definitions)
    (w : World (SplitState π κ)) : ∃ m log, (collect engine part candidate).runFrom w =
        ((Instance.recorded engine w.1.splitter.top part candidate).map (·.2),
          { w.1 with candidates := m }, log) ∧
      ∀ r, Instance.recorded engine w.1.splitter.top part candidate = .ok r →
        m = w.1.candidates.absorb engine w.1.splitter.top r.1 := by
  obtain ⟨log, hprep⟩ := runFrom_prepare_eq engine part candidate w
  rw [collect_eq, Act.runFrom_bind, hprep]
  unfold Instance.recorded
  cases part.gathered engine candidate with
  | error e => exact ⟨w.1.candidates, log, rfl, nofun⟩
  | ok r =>
    -- Merging checks the handles as it goes, so it absorbs the whole model only if all are known.
    obtain ⟨m, log', hmerge, hm⟩ := runFrom_merge engine r.1 (w.1, log)
    refine ⟨m, log', ?_, ?_⟩
    · dsimp only [Except.bind]
      rw [Act.runFrom_bind, hmerge]
      cases w.1.splitter.top.checkHandles r.1 <;> rfl
    · intro r' hr'
      dsimp only [Except.bind] at hr' hm
      cases hcheck : w.1.splitter.top.checkHandles r.1 with
      | error e =>
        rw [hcheck] at hr'
        cases hr'
      | ok _ =>
        rw [hcheck] at hr'
        cases hr'
        exact hm hcheck

end SplitState

/-! ### Calls of the learner -/

/-- A call of the learner: the part, before it is held for the call, and what is known; its answer;
the number of its holds on the part before the call and after it; and all its holds after it. -/
structure Lesson where
  part : Instance
  background : Accumulator
  answer : Except Fault Learned
  before : Nat
  after : Nat
  holds : Holds

/-- What a round amounts to. -/
inductive Finding where
  /-- A part is unsatisfiable, with the reason. -/
  | unsat (reason : String)
  /-- A map is recorded. -/
  | learned (model : Definitions)

namespace Finding

/-- What the loop is told: the reason if a part is unsatisfiable. -/
def answer : Finding → Option String
  | .unsat reason => some reason
  | .learned _ => none

/-- The accumulator after a finding. -/
def record (engine : Engine) (top : Instance) (m : Accumulator) : Finding → Accumulator
  | .unsat _ => m
  | .learned model => m.absorb engine top model

end Finding

namespace Lesson

/-- The call is made in a state of the learner, and leaves another one. -/
def Made (learner : Learner κ) (l : Lesson) (v v' : Visitor κ) : Prop :=
  l.holds = v'.holds ∧
    ∃ log log', (learner.solve l.part.retain l.background).runFrom (v.next, log) =
      (l.answer, v', log')

/-- Calls that are made one after the other lead from a state of the learner to another one. Where
there is no learner, no calls are made. -/
inductive Calls (learner? : Option (Learner κ)) : Visitor κ → List Lesson → Visitor κ → Prop
  | none (v : Visitor κ) : Calls learner? v [] v
  | snoc {v v' v'' : Visitor κ} {ls : List Lesson} {l : Lesson} {learner : Learner κ} :
      Calls learner? v ls v' → learner? = some learner → l.Made learner v' v'' →
      Calls learner? v (ls ++ [l]) v''

/-- The holds after some calls; at first there are none. -/
def heldAfter (ls : List Lesson) : Holds := (ls.getLast?.map (·.holds)).getD 0

/-- These are the holds in the state of the learner. -/
theorem Calls.holds_eq {learner? : Option (Learner κ)} {own : κ} {v : Visitor κ}
    {ls : List Lesson} (h : Calls learner? ⟨own, 0⟩ ls v) : v.holds = heldAfter ls := by
  cases h with
  | none => rfl
  | @snoc _ _ ls l _ _ _ hmade =>
    rw [heldAfter, List.getLast?_concat]
    exact hmade.1.symm

/-- The part when the hold for the call has been released. -/
def left (l : Lesson) : Instance := l.part.rehold l.before l.after

/-- What is found out, and the part as it is left in the end. -/
def conclusion (engine : Engine) (top : Instance) (l : Lesson) :
    Except Fault (Finding × Instance) :=
  l.answer.bind fun
    | .unsat reason => .ok (.unsat reason, l.left)
    | .candidate candidate =>
      (Instance.recorded engine top l.left candidate).map fun r => (.learned r.1, r.2)

/-- What is found out. -/
def finding (engine : Engine) (top : Instance) (l : Lesson) : Except Fault Finding :=
  (l.conclusion engine top).map (·.1)

/-- The part as it is left in the end; a failure leaves it as the learner does. -/
def kept (engine : Engine) (top : Instance) (l : Lesson) : Instance :=
  ((l.conclusion engine top).map (·.2)).toOption.getD l.left

/-- The part as it was, with all that it remembers in the end. -/
def unheld (engine : Engine) (top : Instance) (l : Lesson) : Instance :=
  { l.part with expansions := (l.kept engine top).expansions }

/-- A call that fails leaves the part as the learner does. -/
theorem conclusion_of_error {engine : Engine} {top : Instance} {l : Lesson} {e : Fault}
    (h : l.answer = .error e) : l.conclusion engine top = .error e := by
  rw [conclusion, h]
  rfl

theorem conclusion_of_unsat {engine : Engine} {top : Instance} {l : Lesson} {reason : String}
    (h : l.answer = .ok (.unsat reason)) :
    l.conclusion engine top = .ok (.unsat reason, l.left) := by
  rw [conclusion, h]
  rfl

theorem conclusion_of_candidate {engine : Engine} {top : Instance} {l : Lesson}
    {candidate : Definitions} (h : l.answer = .ok (.candidate candidate)) :
    l.conclusion engine top =
      (Instance.recorded engine top l.left candidate).map fun r => (.learned r.1, r.2) := by
  rw [conclusion, h]
  rfl

theorem finding_of_conclusion {engine : Engine} {top : Instance} {l : Lesson}
    {x : Except Fault (Finding × Instance)} (h : l.conclusion engine top = x) :
    l.finding engine top = x.map (·.1) := by
  rw [finding, h]

theorem kept_of_conclusion {engine : Engine} {top : Instance} {l : Lesson}
    {x : Except Fault (Finding × Instance)} (h : l.conclusion engine top = x) :
    l.kept engine top = (x.map (·.2)).toOption.getD l.left := by
  rw [kept, h]

theorem conclusion_congr (engine : Engine) {top top' : Instance} (h : top.preds = top'.preds)
    (l : Lesson) : l.conclusion engine top = l.conclusion engine top' := by
  unfold conclusion
  simp only [Instance.recorded_congr engine h]

theorem finding_congr (engine : Engine) {top top' : Instance} (h : top.preds = top'.preds)
    (l : Lesson) : l.finding engine top = l.finding engine top' := by
  rw [finding, finding, l.conclusion_congr engine h]

theorem kept_congr (engine : Engine) {top top' : Instance} (h : top.preds = top'.preds)
    (l : Lesson) : l.kept engine top = l.kept engine top' := by
  rw [kept, kept, l.conclusion_congr engine h]

/-- A call that gives no candidate leaves the part as the learner does, and a candidate that cannot
be recorded does, too. -/
theorem kept_cases (engine : Engine) (top : Instance) (l : Lesson) :
    l.kept engine top = l.left ∨ ∃ candidate model, l.answer = .ok (.candidate candidate) ∧
      l.left.gathered engine candidate = .ok (model, l.kept engine top) := by
  rcases hanswer : l.answer with e | candidate | reason
  · rw [kept_of_conclusion (conclusion_of_error hanswer)]
    exact .inl rfl
  · rw [kept_of_conclusion (conclusion_of_candidate hanswer)]
    cases hrecorded : Instance.recorded engine top l.left candidate with
    | error e => exact .inl rfl
    | ok r => exact .inr ⟨candidate, r.1, rfl, Instance.gathered_of_recorded hrecorded⟩
  · rw [kept_of_conclusion (conclusion_of_unsat hanswer)]
    exact .inl rfl

/-- In any case the part only comes to remember more. -/
theorem kept_eq (engine : Engine) (top : Instance) (l : Lesson) :
    l.kept engine top = { l.left with expansions := (l.kept engine top).expansions } := by
  rcases l.kept_cases engine top with hleft | ⟨candidate, model, -, hgathered⟩
  · rw [hleft]
  · exact Instance.gathered_frame hgathered

end Lesson

namespace SplitState

/-- The call of the learner on a part in a state of the loop, when it has given an answer and gone
over to another state. -/
def lesson (s : SplitState π κ) (reduced : Option Instance) (answer : Except Fault Learned)
    (v : Visitor κ) : Lesson :=
  ⟨s.given reduced, s.candidates, answer, s.learner.holds.next.onLast (reduced :: s.parts),
    v.holds.onLast (reduced :: s.parts), v.holds⟩

/-- The call is made when the learner is asked about the part. -/
theorem Asks.made {learner : Learner κ} {reduced : Option Instance} {w w' : World (SplitState π κ)}
    {answer : Except Fault Learned} (h : Asks learner reduced w answer w') :
    (w.1.lesson reduced answer w'.1.learner).Made learner w.1.learner w'.1.learner := by
  unfold Asks runLearner at h
  cases h
  exact ⟨rfl, _, _, rfl⟩

/-- The part is left as the call says. -/
theorem left_lesson (s : SplitState π κ) (reduced : Option Instance)
    (answer : Except Fault Learned) (v : Visitor κ) :
    (s.lesson reduced answer v).left = (s.taught reduced v).lastPart :=
  (s.lastPart_taught reduced v).symm

/-- The part that the learner was called on last is stored already. -/
theorem stored_lastPart (s : SplitState π κ) (reduced : Option Instance) (v : Visitor κ) :
    (s.taught reduced v).stored reduced (s.taught reduced v).lastPart = s.taught reduced v := by
  cases reduced <;> rfl

/-- All that the conclusion from a lesson changes. -/
structure Concludes (engine : Engine) (reduced : Option Instance) (s : SplitState π κ) (l : Lesson)
    (s' : SplitState π κ) : Prop where
  learner : s'.learner = s.learner
  splitter : s'.splitter = s.splitter
  parts : s'.parts = (s.stored reduced (l.kept engine s.splitter.top)).parts
  candidates : ∀ f, l.finding engine s.splitter.top = .ok f →
    s'.candidates = f.record engine s.splitter.top s.candidates

/-- What is concluded if the part stays as the learner leaves it. -/
theorem concludes_left {engine : Engine} {reduced : Option Instance} {s : SplitState π κ}
    {l : Lesson} {m : Accumulator} (hstored : s.stored reduced l.left = s)
    (hkept : l.kept engine s.splitter.top = l.left)
    (hm : ∀ f, l.finding engine s.splitter.top = .ok f →
      m = f.record engine s.splitter.top s.candidates) :
    Concludes engine reduced s l { s with candidates := m } := by
  refine ⟨rfl, rfl, ?_, hm⟩
  rw [hkept, hstored]

/-- The conclusion from a lesson that gives a candidate. -/
theorem exists_concludes_candidate (engine : Engine) {reduced : Option Instance} {l : Lesson}
    {w : World (SplitState π κ)} {candidate : Definitions} (hlast : w.1.lastPart = l.left)
    (hstored : w.1.stored reduced l.left = w.1) (hanswer : l.answer = .ok (.candidate candidate)) :
    ∃ s' log, (conclude engine reduced (.ok (.candidate candidate))).runFrom w =
        ((l.finding engine w.1.splitter.top).map Finding.answer, s', log) ∧
      Concludes engine reduced w.1 l s' := by
  have hconclusion : l.conclusion engine w.1.splitter.top = _ :=
    Lesson.conclusion_of_candidate hanswer
  have hfinding := Lesson.finding_of_conclusion hconclusion
  have hkept := Lesson.kept_of_conclusion hconclusion
  obtain ⟨m, log, hcollect, hm⟩ := runFrom_collect engine l.left candidate
    (w.1, w.2 ++ [⟨.debug, .splitting, "learner", true⟩])
  dsimp only at hcollect hm
  unfold conclude
  rw [Act.runFrom_bind_of_ok (Act.runFrom_debugTimed _ _ _),
    Act.runFrom_bind_of_ok (Act.runFrom_get _), hlast, Act.runFrom_bind, hcollect, hfinding]
  cases hrecorded : Instance.recorded engine w.1.splitter.top l.left candidate with
  | error e =>
    rw [hrecorded] at hfinding hkept
    refine ⟨_, log, rfl, concludes_left hstored hkept ?_⟩
    intro f hf
    rw [hfinding] at hf
    cases hf
  | ok r =>
    -- The part after collecting takes the place of the one that was stored.
    rw [hrecorded] at hfinding hkept
    refine ⟨_, _, rfl, rfl, rfl, ?_, ?_⟩
    · rw [hkept]
      rfl
    · intro f hf
      rw [hfinding] at hf
      cases hf
      exact hm r hrecorded

/-- **The conclusion from a lesson**, in all cases. -/
theorem exists_concludes (engine : Engine) {reduced : Option Instance} {l : Lesson}
    {w : World (SplitState π κ)} (hlast : w.1.lastPart = l.left)
    (hstored : w.1.stored reduced l.left = w.1) :
    ∃ s' log, (conclude engine reduced l.answer).runFrom w =
        ((l.finding engine w.1.splitter.top).map Finding.answer, s', log) ∧
      Concludes engine reduced w.1 l s' := by
  rcases hanswer : l.answer with e | candidate | reason
  · have hconclusion : l.conclusion engine w.1.splitter.top = _ :=
      Lesson.conclusion_of_error hanswer
    have hfinding := Lesson.finding_of_conclusion hconclusion
    rw [hfinding]
    -- An answer that failed finds nothing, so there is nothing to have recorded.
    refine ⟨_, w.2, rfl, concludes_left hstored (Lesson.kept_of_conclusion hconclusion) ?_⟩
    intro f hf
    rw [hfinding] at hf
    cases hf
  · exact exists_concludes_candidate engine hlast hstored hanswer
  · have hconclusion : l.conclusion engine w.1.splitter.top = _ :=
      Lesson.conclusion_of_unsat hanswer
    have hfinding := Lesson.finding_of_conclusion hconclusion
    rw [hfinding]
    refine ⟨_, w.2 ++ [⟨.debug, .splitting, "learner", true⟩], rfl,
      concludes_left hstored (Lesson.kept_of_conclusion hconclusion) ?_⟩
    intro f hf
    rw [hfinding] at hf
    cases hf
    -- A contradiction records nothing: the candidates are those from before.
    rfl

/-- All that learning changes: the learner is called, and the conclusion is drawn. -/
structure Learns (engine : Engine) (learner : Learner κ) (reduced : Option Instance)
    (s : SplitState π κ) (l : Lesson) (s' : SplitState π κ) : Prop where
  lesson : ∃ answer, l = s.lesson reduced answer s'.learner
  made : l.Made learner s.learner s'.learner
  concludes : Concludes engine reduced (s.taught reduced s'.learner) l s'

/-- **Learning**, in all cases. -/
theorem exists_learns (engine : Engine) (learner : Learner κ) (reduced : Option Instance)
    (w : World (SplitState π κ)) : ∃ l s' log,
      (learn engine learner reduced).runFrom w =
        ((l.finding engine w.1.splitter.top).map Finding.answer, s', log) ∧
      Learns engine learner reduced w.1 l s' := by
  obtain ⟨answer, ⟨s₁, log₁⟩, hask⟩ := exists_asks learner reduced w
  have hmade := hask.made
  rw [runFrom_learn hask]
  obtain ⟨v, rfl⟩ : ∃ v, s₁ = w.1.taught reduced v := ⟨_, hask.spec⟩
  have hleft := w.1.left_lesson reduced answer v
  obtain ⟨s', log, hrun, hconcludes⟩ := exists_concludes engine (l := w.1.lesson reduced answer v)
    (w := (w.1.taught reduced v, log₁)) hleft.symm (by rw [hleft]; exact stored_lastPart _ _ _)
  have hlearner : s'.learner = v := hconcludes.learner
  refine ⟨w.1.lesson reduced answer v, s', log, ?_, ⟨answer, ?_⟩, ?_, ?_⟩
  -- The call changes the holds on the top-level instance, but not its predicates.
  · have hpreds : (w.1.taught reduced v).splitter.top.preds = w.1.splitter.top.preds := rfl
    rw [← Lesson.finding_congr engine hpreds]
    exact hrun
  · rw [hlearner]
  · rw [hlearner]
    exact hmade
  · rw [hlearner]
    exact hconcludes

end SplitState

/-! ### Handling a part -/

/-- What a part amounts to, given the call of the learner on it, if there was one. -/
def Reduced.finding (engine : Engine) (top : Instance) (lesson? : Option Lesson) :
    Reduced → Except Fault Finding
  | .trivial none => .ok (.unsat "by preprocessing")
  | .trivial (some model) => (top.checkHandles model).map fun _ => .learned model
  | .whole | .sub _ =>
    match lesson? with
    | none => .ok (.learned [])
    | some l => l.finding engine top

theorem Reduced.finding_congr (engine : Engine) {top top' : Instance} (h : top.preds = top'.preds)
    (lesson? : Option Lesson) (r : Reduced) :
    r.finding engine top lesson? = r.finding engine top' lesson? := by
  unfold finding Lesson.finding
  simp only [Instance.checkHandles_congr h, Lesson.conclusion_congr engine h]

theorem Finding.record_congr (engine : Engine) {top top' : Instance} (h : top.preds = top'.preds)
    (m : Accumulator) (f : Finding) : f.record engine top m = f.record engine top' m := by
  cases f with
  | unsat reason => rfl
  | learned model => exact Accumulator.absorb_congr h m model

namespace SplitState

/-- Parts are handed to a learner. -/
def asks (config : SplitConfig) (learner? : Option (Learner κ)) : Bool :=
  config.infer && learner?.isSome

/-- All that handling a part changes. -/
inductive Handles (engine : Engine) (config : SplitConfig) (learner? : Option (Learner κ))
    (s : SplitState π κ) : Reduced → Option Lesson → SplitState π κ → Prop
  | refuted : Handles engine config learner? s (.trivial none) none s
  | decided {model : Definitions} {m : Accumulator} :
      (s.splitter.top.checkHandles model = .ok () →
        m = s.candidates.absorb engine s.splitter.top model) →
      Handles engine config learner? s (.trivial (some model)) none { s with candidates := m }
  | skipped (reduced : Option Instance) : asks config learner? = false →
      Handles engine config learner? s (ofPart reduced) none s
  | learned {reduced : Option Instance} {learner : Learner κ} {l : Lesson} {s' : SplitState π κ} :
      asks config learner? = true → learner? = some learner →
      Learns engine learner reduced s l s' →
      Handles engine config learner? s (ofPart reduced) (some l) s'

theorem finding_ofPart (engine : Engine) (top : Instance) (lesson? : Option Lesson)
    (reduced : Option Instance) : (ofPart reduced).finding engine top lesson? =
      match lesson? with
      | none => .ok (.learned [])
      | some l => l.finding engine top := by
  cases reduced <;> rfl

/-- What is found out is recorded. -/
theorem Handles.candidates {engine : Engine} {config : SplitConfig}
    {learner? : Option (Learner κ)} {s s' : SplitState π κ} {r : Reduced}
    {lesson? : Option Lesson} (h : Handles engine config learner? s r lesson? s') {f : Finding}
    (hf : r.finding engine s.splitter.top lesson? = .ok f) :
    s'.candidates = f.record engine s.splitter.top s.candidates := by
  cases h with
  | refuted =>
    cases hf
    rfl
  -- A model of the preprocessor is recorded as it is, if its handles are known.
  | @decided model m hm =>
    have hfinding : (Reduced.trivial (some model)).finding engine s.splitter.top none =
        (s.splitter.top.checkHandles model).map fun _ => .learned model := rfl
    rw [hfinding] at hf
    cases hcheck : s.splitter.top.checkHandles model with
    | error e =>
      rw [hcheck] at hf
      cases hf
    | ok _ =>
      rw [hcheck] at hf
      cases hf
      exact hm hcheck
  | skipped reduced =>
    rw [finding_ofPart] at hf
    cases hf
    rfl
  | learned _ _ hlearns =>
    rw [finding_ofPart] at hf
    exact hlearns.concludes.candidates f hf

/-- Handling a part that preprocessing has not decided. -/
theorem exists_handles_part (engine : Engine) (config : SplitConfig)
    (learner? : Option (Learner κ)) (reduced : Option Instance) (w : World (SplitState π κ)) :
    ∃ lesson? s' log, (handle.part engine config learner? reduced).runFrom w =
        (((ofPart reduced).finding engine w.1.splitter.top lesson?).map Finding.answer, s', log) ∧
      Handles engine config learner? w.1 (ofPart reduced) lesson? s' := by
  by_cases hasks : asks config learner? = true
  · obtain ⟨hinfer, hsome⟩ := Bool.and_eq_true_iff.1 hasks
    obtain ⟨learner, rfl⟩ := Option.isSome_iff_exists.1 hsome
    obtain ⟨l, s', log, hrun, hlearns⟩ := exists_learns engine learner reduced w
    refine ⟨some l, s', log, ?_, .learned hasks rfl hlearns⟩
    rw [finding_ofPart]
    unfold handle.part
    rw [hinfer]
    exact hrun
  · rw [Bool.not_eq_true] at hasks
    refine ⟨none, w.1, w.2 ++ [⟨.info, .splitting, "Skipping learning...", false⟩], ?_,
      .skipped reduced hasks⟩
    rw [finding_ofPart]
    unfold handle.part
    split
    · next learner hinfer =>
      -- There is a learner, and it is to be asked.
      rw [asks, hinfer] at hasks
      cases hasks
    · rfl

/-- **Handling a part**, in all cases. -/
theorem exists_handles (engine : Engine) (config : SplitConfig) (learner? : Option (Learner κ))
    (r : Reduced) (w : World (SplitState π κ)) : ∃ lesson? s' log,
      (handle engine config learner? r).runFrom w =
        ((r.finding engine w.1.splitter.top lesson?).map Finding.answer, s', log) ∧
      Handles engine config learner? w.1 r lesson? s' := by
  rcases r with _ | part | _ | model
  · exact exists_handles_part engine config learner? none w
  · exact exists_handles_part engine config learner? (some part) w
  -- A contradiction of the preprocessor ends the handling before anything is recorded.
  · exact ⟨none, w.1, w.2, rfl, .refuted⟩
  · obtain ⟨m, log, hmerge, hm⟩ := runFrom_merge engine model
      (w.1, w.2 ++ [⟨.info, .splitting, "sat by preproc", false⟩])
    refine ⟨none, { w.1 with candidates := m }, log, ?_, .decided hm⟩
    have hfinding : (Reduced.trivial (some model)).finding engine w.1.splitter.top none =
        (w.1.splitter.top.checkHandles model).map fun _ => .learned model := rfl
    unfold handle
    dsimp only at hmerge ⊢
    rw [Act.runFrom_bind_of_ok (Act.runFrom_info _ _ w), Act.runFrom_bind, hmerge, hfinding]
    cases w.1.splitter.top.checkHandles model <;> rfl

end SplitState

end Horn
