import Horn.Proofs.Split.Soundness

/-!
# The verdict of the split loop

Splitting does not change the verdict. With the standard preprocessor and a reliable learner, a run
on an instance without definitions that returns says *unsatisfiable* exactly if no interpretation
satisfies all clauses (`isUnsat_iff_of_solve`), whatever the settings are. It does return if the
engine takes the calls that rebuild the candidates' formulas (`solve_plain_runs`).

* A round ends without a contradiction exactly if the clauses that the part stands for are
  satisfiable (`Parts.verdict`). An isolated clause that cannot be satisfied together with the
  clauses with a conclusion is a contradiction of the whole instance.
* When nothing remains, every negative clause can be satisfied together with the clauses with a
  conclusion (`SplitState.Cleared`). The intersection of these interpretations satisfies all clauses
  at once (`Instance.IsPlain.satisfiable_of_kept`).

The last step needs clauses that mention predicates in their applications only. `solve_misses` shows
that it fails otherwise.
-/

namespace Horn

/-- The outcome is that the instance is unsatisfiable. -/
def Outcome.IsUnsat (o : Outcome) : Prop := ∃ reason, o = .unsat reason

/-- The arguments of all applications of a clause. -/
def Clause.arguments (c : Clause) : List Term :=
  c.apps.flatMap (·.2) ++ c.conclusion.toList.flatMap (·.2)

namespace Instance

variable {engine : Engine} {inst : Instance}

/-! ### Plain instances -/

/-- A well-formed instance without definitions, with side conditions that mention no predicate. -/
structure IsPlain (inst : Instance) : Prop where
  wellFormed : inst.WellFormed
  undefined : ∀ q ∈ inst.preds, q.definition = none
  free : ∀ c ∈ inst.clauses, ∀ t ∈ c.terms, inst.predsIn t = []

/-- Nothing is defined. -/
theorem IsPlain.definition?_eq_none (h : inst.IsPlain) (p : Nat) : inst.definition? p = none := by
  rw [definition?, Option.bind_eq_none_iff]
  exact fun q hq => h.undefined q (List.mem_of_getElem? hq)

/-- What mentions no predicate does not mention an undefined one. -/
theorem not_isUndefined_of_predsIn {t : Term} (h : inst.predsIn t = []) :
    ∀ f ∈ t.symbols, ¬IsUndefined inst.preds f := by
  rintro f hf ⟨q, hq, -, rfl⟩
  obtain ⟨p, hp⟩ := List.getElem?_of_mem hq
  have hmem : p ∈ inst.predsIn t := mem_predsIn.2 ⟨q, hp, hf⟩
  rw [h] at hmem
  cases hmem

/-- A plain instance whose arguments mention no predicate either. -/
theorem IsPlain.avoids (h : inst.IsPlain)
    (hargs : ∀ c ∈ inst.clauses, ∀ t ∈ c.arguments, inst.predsIn t = []) :
    ∀ c ∈ inst.clauses, c.Avoids (IsUndefined inst.preds) := by
  intro c hc t ht
  unfold Clause.parts at ht
  rw [List.append_assoc, List.mem_append] at ht
  rcases ht with ht | ht
  · exact not_isUndefined_of_predsIn (h.free c hc t ht)
  · exact not_isUndefined_of_predsIn (hargs c hc t ht)

/-- What is derived from a plain instance is plain. -/
theorem IsPlain.derived (h : inst.IsPlain) {sub : Instance} {cs : List Clause}
    (hcs : ∀ c ∈ cs, c ∈ inst.clauses) (hsub : Derived inst sub cs) : sub.IsPlain := by
  refine ⟨hsub.wellFormed, by rw [hsub.preds]; exact h.undefined, fun d hd t ht => ?_⟩
  obtain ⟨c, hc, hcd⟩ := (exists_of_forall₂ hsub.clauses).2 d hd
  rw [predsIn_congr hsub.preds]
  exact h.free c (hcs c hc) t (hcd.terms ▸ ht)

/-- A trivial decision about a plain instance is its verdict. -/
theorem IsPlain.decided_iff (hE : engine.Decides) (h : inst.IsPlain) {answer : Option Definitions}
    (hanswer : Decided engine inst answer) :
    answer ≠ none ↔ Satisfiable inst.preds inst.clauses := by
  have hsafe : inst.AllSafe := by
    intro p hp
    rw [h.definition?_eq_none] at hp
    cases hp
  obtain ⟨hsat, hunsat⟩ := hanswer.right hE h.wellFormed hsafe h.free
  rcases answer with _ | model
  · simp [hunsat rfl]
  · obtain ⟨-, -, hmodels⟩ := hsat model rfl
    -- No clause concludes a defined predicate, so the offered model is one.
    refine iff_of_true (Option.some_ne_none model) (hmodels.2 ?_).satisfiable
    rintro c - ⟨a, -, ha⟩
    rw [h.definition?_eq_none] at ha
    cases ha

/-! ### One negative clause at a time -/

/-- **Putting the parts together.** If each negative clause can be satisfied together with the
clauses with a conclusion, then all clauses can be satisfied at once. -/
theorem IsPlain.satisfiable_of_kept (h : inst.IsPlain)
    (hargs : ∀ c ∈ inst.clauses, ∀ t ∈ c.arguments, inst.predsIn t = [])
    (hkept : ∀ c ∈ inst.clauses, c.conclusion = none →
      Satisfiable inst.preds (inst.keptClauses c.index)) :
    Satisfiable inst.preds inst.clauses := by
  have hn := h.wellFormed.names
  have havoid := h.avoids hargs
  have hclosed : ClosedDefinitions inst.preds := by
    intro q hq d hd
    rw [h.undefined q hq] at hd
    cases hd
  by_cases hneg : ∃ c ∈ inst.clauses, c.conclusion = none
  · -- The intersection of the interpretations for all negative clauses.
    let ι := {c // c ∈ inst.clauses ∧ c.conclusion = none}
    have hι : Nonempty ι := by
      obtain ⟨c, hc⟩ := hneg
      exact ⟨c, hc⟩
    have hall : ∀ i : ι, ∃ J : Interpretation inst.preds,
        ∀ d ∈ inst.keptClauses i.1.index, J.Satisfies d := fun i => hkept i.1 i.2.1 i.2.2
    -- One interpretation for each negative clause.
    choose J hJ using hall
    refine ⟨Interpretation.inf J, fun d hd => ?_⟩
    -- A negative clause is satisfied by its own interpretation, hence by a smaller one.
    by_cases hd' : d.conclusion = none
    · have hle : (Interpretation.inf J).Le (J ⟨d, hd, hd'⟩) := fun _ _ _ _ _ _ _ hrel => hrel _
      exact Interpretation.satisfies_of_le hn hclosed hle hd' (havoid d hd)
        (hJ _ d (mem_keptClauses_self hd))
    · -- A clause with a conclusion is satisfied by all of them, hence by the intersection.
      exact Interpretation.inf_satisfies hn hclosed (havoid d hd) fun i =>
        hJ i d (mem_keptClauses_of_conclusion hd hd' _)
  · -- Without negative clauses the full interpretation will do.
    refine ⟨Interpretation.full inst.preds, fun d hd => h.wellFormed.full_satisfies hd ?_ ?_⟩
    · rw [Clause.isNegative, Option.isNone_eq_false_iff, Option.isSome_iff_ne_none]
      exact fun hd' => hneg ⟨d, hd, hd'⟩
    · rintro ⟨a, -, ha⟩
      rw [h.definition?_eq_none] at ha
      cases ha

end Instance

namespace SplitState

variable {π κ : Type} {engine : Engine} {config : SplitConfig} {learner : Learner κ}
  {inst : Instance} {p₀ : π} {l₀ : κ}

/-! ### The verdict on a part -/

/-- What is relied on in the learner, about the parts of one run: it does not fail, a candidate
satisfies the part together with what is known, and a part that is called unsatisfiable is so. -/
structure Reliable (engine : Engine) (config : SplitConfig) (p : Preprocessor π)
    (learner : Learner κ) (start : World (SplitState π κ)) : Prop where
  answers : ∀ {w w₁ w₂ reduced answer}, Reaches engine config p learner start w →
    Produces config p w (ofPart reduced) w₁ → Asks learner reduced w₁ answer w₂ →
    ∃ a, answer = .ok a
  learned : ∀ {w w₁ w₂ reduced candidate}, Reaches engine config p learner start w →
    Produces config p w (ofPart reduced) w₁ →
    Asks learner reduced w₁ (.ok (.candidate candidate)) w₂ →
    (w₁.1.given reduced).IsCandidate candidate ∧
      Models (w₁.1.given reduced).preds (w₁.1.given reduced).clauses
        (w₁.1.candidates.joined candidate)
  refused : ∀ {w w₁ w₂ reduced reason}, Reaches engine config p learner start w →
    Produces config p w (ofPart reduced) w₁ →
    Asks learner reduced w₁ (.ok (.unsat reason)) w₂ →
    ¬Satisfiable (w₁.1.given reduced).preds (w₁.1.given reduced).clauses

/-- **The verdict on a part.** A part is handled without a contradiction exactly if the clauses that
it stands for are satisfiable. -/
theorem Parts.verdict (hE : engine.Decides) (hplain : inst.IsPlain)
    (hlearner : Reliable engine config (Preprocessor.standard engine π) learner
      (startWorld inst config p₀ l₀))
    {w w₁ w' : World (SplitState π κ)} {r : Reduced} {clauses : List Clause}
    {answer : Option String}
    (hw : Reaches engine config (Preprocessor.standard engine π) learner
      (startWorld inst config p₀ l₀) w)
    (hprod : Produces config (Preprocessor.standard engine π) w r w₁)
    (htidy : Tidy inst config p₀ w₁.1.splitter)
    (hparts : Parts engine inst w.1.splitter w₁.1.splitter r clauses)
    (hhandled : Handled engine learner w₁ r answer w') :
    answer = none ↔ Satisfiable inst.preds clauses := by
  -- What the learner says of a part, it says of the clauses that the part stands for.
  have hpart : ∀ reduced, r = ofPart reduced →
      (Satisfiable (w₁.1.given reduced).preds (w₁.1.given reduced).clauses ↔
        Satisfiable inst.preds clauses) := by
    intro reduced hr
    obtain ⟨hpreds, hcontent⟩ := hparts.content htidy.keeps hr
    rw [hpreds]
    exact satisfiable_iff_of_sameContent hcontent
  -- So does preprocessing.
  have hdecided : ∀ answer, r = .trivial answer →
      (answer ≠ none ↔ Satisfiable inst.preds clauses) := by
    rintro answer rfl
    cases hparts with
    | isolated _ _ h =>
      cases h with
      | decided hsub hdec =>
        have hsubplain := hplain.derived (fun _ hc => List.mem_of_mem_filter hc) hsub
        rw [hsubplain.decided_iff hE hdec, hsub.preds]
        exact satisfiable_iff_of_sameContent hsub.clauses
  cases hhandled with
  | refuted => exact iff_of_false (by simp) fun hsat => (hdecided none rfl).2 hsat rfl
  | @decided model _ _ _ _ => exact iff_of_true rfl ((hdecided (some model) rfl).1 (by simp))
  -- The learner has given up.
  | unsat hr hask _ =>
    subst hr
    have hnot := hlearner.refused hw hprod hask
    rw [hpart _ rfl] at hnot
    exact iff_of_false (by simp) hnot
  | learned hr hask _ _ _ _ =>
    subst hr
    obtain ⟨-, hmodels⟩ := hlearner.learned hw hprod hask
    exact iff_of_true rfl ((hpart _ rfl).1 hmodels.satisfiable)

/-! ### The invariant -/

/-- What has been handled is satisfiable: the whole instance, or each negative clause that is no
longer pending together with the clauses with a conclusion. -/
def Cleared (inst : Instance) (sp : Splitter π) : Prop :=
  match sp.progress with
  | .active pending _ => ∀ c ∈ inst.clauses, c.conclusion = none → c.index ∉ pending →
      Satisfiable inst.preds (inst.keptClauses c.index)
  | .inactive fired => fired = true → Satisfiable inst.preds inst.clauses

/-- At the start everything is pending. -/
theorem cleared_create (inst : Instance) (config : SplitConfig) (p₀ : π) :
    Cleared inst (Splitter.create inst config p₀) := by
  have hprog : (Splitter.create inst config p₀).progress = Splitter.start inst config := rfl
  unfold Cleared
  rw [hprog]
  rcases Splitter.start_cases inst config with ⟨-, hstart⟩ | hstart
  · rw [hstart]
    exact fun c hc hneg hnot => absurd (Instance.mem_splitOrder.2 ⟨c, hc, hneg, rfl⟩) hnot
  · rw [hstart]
    rintro ⟨⟩

/-- When nothing remains, the whole instance is satisfiable. -/
theorem Cleared.satisfiable (hplain : inst.IsPlain)
    (hargs : ∀ c ∈ inst.clauses, ∀ t ∈ c.arguments, inst.predsIn t = [])
    {sp : Splitter π} (h : Cleared inst sp) (hrem : sp.progress.remaining = 0) :
    Satisfiable inst.preds inst.clauses := by
  unfold Cleared at h
  rcases Progress.eq_of_remaining hrem with ⟨_, hprog⟩ | hprog
  · rw [hprog] at h
    exact hplain.satisfiable_of_kept hargs fun c hc hneg => h c hc hneg List.not_mem_nil
  · rw [hprog] at h
    exact h rfl

/-- **One round.** What is handled without a contradiction is cleared. -/
theorem Cleared.round {sp sp₁ sp' : Splitter π} {r : Reduced} {clauses : List Clause}
    (h : Cleared inst sp) (hparts : Parts engine inst sp sp₁ r clauses)
    (hsat : Satisfiable inst.preds clauses) (hprog : sp'.progress = sp₁.progress) :
    Cleared inst sp' := by
  unfold Cleared at h ⊢
  rw [hprog]
  cases hparts with
  | whole _ hafter =>
    rw [hafter]
    exact fun _ => hsat
  | @isolated _ pending clause total hbefore hafter _ =>
    rw [hafter]
    rw [hbefore] at h
    intro c hc hneg hnot
    by_cases hi : c.index = clause
    · rw [hi]
      exact hsat
    · -- A clause that was cleared before.
      refine h c hc hneg fun hmem => ?_
      rw [List.mem_append, List.mem_singleton] at hmem
      exact hmem.elim hnot hi

/-- The invariant holds in all worlds that are reached. -/
theorem Reaches.cleared (hE : engine.Decides) (hplain : inst.IsPlain)
    (hinfer : config.infer = true)
    (hlearner : Reliable engine config (Preprocessor.standard engine π) learner
      (startWorld inst config p₀ l₀))
    {w : World (SplitState π κ)}
    (hw : Reaches engine config (Preprocessor.standard engine π) learner
      (startWorld inst config p₀ l₀) w) : Cleared inst w.1.splitter := by
  refine hw.invariant (P := fun w => Cleared inst w.1.splitter) ?_
    fun hw hcleared hprod hhandle => ?_
  · rw [startWorld_fst]
    exact cleared_create inst config p₀
  · have hbefore := hw.tidy hplain.wellFormed hinfer
    obtain ⟨htidy, -, clauses, hparts⟩ := hbefore.produces hplain.wellFormed hprod
    have hhandled := hparts.handled hinfer hw.holdsTop hbefore hprod hhandle
    exact hcleared.round hparts ((hparts.verdict hE hplain hlearner hw hprod htidy hhandled).1 rfl)
      hhandled.progress

/-! ### Learners that guess -/

/-- A learner that guesses is reliable if its candidates satisfy the parts. -/
theorem reliable_guessing {f : List Clause → Definitions} (hg : Guessable inst f)
    (config : SplitConfig) (hinfer : config.infer = true) (p₀ : π)
    (hmodel : ∀ {w w₁ r clauses cs}, Reaches Engine.literal config
        (Preprocessor.standard Engine.literal π) (Learner.guessing f)
        (startWorld inst config p₀ ()) w →
      Parts Engine.literal inst w.1.splitter w₁ r clauses →
      List.Forall₂ Clause.SameContent clauses cs →
      Models inst.preds clauses (w.1.candidates.joined (f cs))) :
    Reliable Engine.literal config (Preprocessor.standard Engine.literal π) (Learner.guessing f)
      (startWorld inst config p₀ ()) := by
  constructor
  case answers =>
    intro w w₁ w₂ reduced answer _ _ hask
    exact ⟨_, hask.guessing⟩
  case learned =>
    intro w w₁ w₂ reduced candidate hw hprod hask
    cases hask.guessing
    obtain ⟨hpreds, hmodels⟩ := models_guessed hg hinfer hw hprod fun _ => hmodel hw
    exact ⟨(hg.candidates _).congr hpreds, hmodels⟩
  case refused =>
    intro w w₁ w₂ reduced reason _ _ hask
    cases hask.guessing

/-! ### The verdict on the instance -/

/-- A run with a reliable learner returns if the engine takes the calls that rebuild the
candidates' formulas. -/
theorem solve_plain_runs (hcall : engine.callable.Reapplies) (hplain : inst.IsPlain)
    (hinfer : config.infer = true)
    (hlearner : Reliable engine config (Preprocessor.standard engine π) learner
      (startWorld inst config p₀ l₀)) :
    ∃ outcome s' log, Horn.solve engine inst config (Preprocessor.standard engine π) (some learner)
      p₀ l₀ = (.ok outcome, s', log) := by
  refine solve_standard_runs hcall hplain.wellFormed hplain.undefined hinfer
    fun hw hprod hask => ?_
  -- The learner does not fail, and it answers with formulas.
  obtain ⟨a, rfl⟩ := hlearner.answers hw hprod hask
  refine ⟨a, rfl, ?_⟩
  rintro candidate rfl
  exact (hlearner.learned hw hprod hask).1

/-- A run that returns says *unsatisfiable* exactly if the instance is unsatisfiable. -/
theorem isUnsat_iff_of_solve (hE : engine.Decides) (hplain : inst.IsPlain)
    (hargs : ∀ c ∈ inst.clauses, ∀ t ∈ c.arguments, inst.predsIn t = [])
    (hinfer : config.infer = true)
    (hlearner : Reliable engine config (Preprocessor.standard engine π) learner
      (startWorld inst config p₀ l₀)) {outcome : Outcome} {s' : SplitState π κ} {log : Log}
    (hrun : Horn.solve engine inst config (Preprocessor.standard engine π) (some learner) p₀ l₀ =
      (.ok outcome, s', log)) :
    outcome.IsUnsat ↔ ¬Satisfiable inst.preds inst.clauses := by
  obtain ⟨answer, w, w', hw, hstop, rfl⟩ :=
    solve_ok hinfer (partsRemember_standard hplain.wellFormed hinfer) hrun
  cases hstop with
  | finished hrem _ =>
    have hsat := (hw.cleared hE hplain hinfer hlearner).satisfiable hplain hargs hrem
    simp [outcomeOf, Outcome.IsUnsat, hsat]
  | @refuted w₁ _ r reason hprod hhandle =>
    have hbefore := hw.tidy hplain.wellFormed hinfer
    obtain ⟨htidy, -, clauses, hparts⟩ := hbefore.produces hplain.wellFormed hprod
    have hverdict := hparts.verdict hE hplain hlearner hw hprod htidy
      (hparts.handled hinfer hw.holdsTop hbefore hprod hhandle)
    -- A contradiction of some clauses is one of all clauses.
    have hnot : ¬Satisfiable inst.preds inst.clauses := by
      intro hsat
      have hpart := hsat.mono fun c hc => ⟨c, hparts.subset hc, .refl c⟩
      cases hverdict.2 hpart
    simp [outcomeOf, Outcome.IsUnsat, hnot]

/-- **Splitting does not change the verdict.** Under any two settings, runs on a plain instance with
the standard preprocessor and a reliable learner that return do so with the same verdict, and it is
right, if no argument mentions a predicate. They return unless the engine refuses to rebuild a
formula of a candidate. -/
theorem solve_verdict (hE : engine.Decides) (hplain : inst.IsPlain)
    (hargs : ∀ c ∈ inst.clauses, ∀ t ∈ c.arguments, inst.predsIn t = [])
    {config₁ config₂ : SplitConfig} (hinfer₁ : config₁.infer = true)
    (hinfer₂ : config₂.infer = true)
    (hlearner₁ : Reliable engine config₁ (Preprocessor.standard engine π) learner
      (startWorld inst config₁ p₀ l₀))
    (hlearner₂ : Reliable engine config₂ (Preprocessor.standard engine π) learner
      (startWorld inst config₂ p₀ l₀)) :
    let run config := (Horn.solve engine inst config (Preprocessor.standard engine π)
      (some learner) p₀ l₀).1
    (∀ {outcome₁ outcome₂ : Outcome}, run config₁ = .ok outcome₁ → run config₂ = .ok outcome₂ →
      (outcome₁.IsUnsat ↔ outcome₂.IsUnsat) ∧
      (outcome₁.IsUnsat ↔ ¬Satisfiable inst.preds inst.clauses)) ∧
    (engine.callable.Reapplies →
      ∃ outcome₁ outcome₂, run config₁ = .ok outcome₁ ∧ run config₂ = .ok outcome₂) := by
  intro run
  constructor
  · intro outcome₁ outcome₂ hrun₁ hrun₂
    have hverdict₁ := isUnsat_iff_of_solve hE hplain hargs hinfer₁ hlearner₁ (Prod.ext hrun₁ rfl)
    have hverdict₂ := isUnsat_iff_of_solve hE hplain hargs hinfer₂ hlearner₂ (Prod.ext hrun₂ rfl)
    exact ⟨hverdict₁.trans hverdict₂.symm, hverdict₁⟩
  · intro hcall
    obtain ⟨outcome₁, _, _, hrun₁⟩ := solve_plain_runs hcall hplain hinfer₁ hlearner₁
    obtain ⟨outcome₂, _, _, hrun₂⟩ := solve_plain_runs hcall hplain hinfer₂ hlearner₂
    exact ⟨outcome₁, outcome₂, congrArg Prod.fst hrun₁, congrArg Prod.fst hrun₂⟩

/-- With and without splitting, the three clauses are found to be satisfiable. -/
theorem solve_verdict_oneOnly : ∃ outcome₁ outcome₂,
    (Horn.solve Engine.literal oneOnly SplitConfig.default
      (Preprocessor.standard Engine.literal Unit)
      (some (Learner.guessing fun _ => [(0, isOne)])) () ()).1 = .ok outcome₁ ∧
    (Horn.solve Engine.literal oneOnly ⟨false, false, true, false⟩
      (Preprocessor.standard Engine.literal Unit)
      (some (Learner.guessing fun _ => [(0, isOne)])) () ()).1 = .ok outcome₂ ∧
    (outcome₁.IsUnsat ↔ outcome₂.IsUnsat) ∧
    (outcome₁.IsUnsat ↔ ¬Satisfiable oneOnly.preds oneOnly.clauses) := by
  have hreliable (config : SplitConfig) (hinfer : config.infer = true) :
      Reliable Engine.literal config (Preprocessor.standard Engine.literal Unit)
        (Learner.guessing fun _ => [(0, isOne)]) (startWorld oneOnly config () ()) :=
    reliable_guessing guessable_oneOnly _ hinfer () fun hw hparts _ =>
      models_part_oneOnly hinfer hw hparts
  obtain ⟨hverdict, hruns⟩ := solve_verdict Engine.decides_literal
    ⟨by decide, by decide, by decide⟩ (by decide) (by rfl) (by rfl)
    (hreliable .default rfl) (hreliable ⟨false, false, true, false⟩ rfl)
  obtain ⟨outcome₁, outcome₂, hrun₁, hrun₂⟩ := hruns Callable.reapplies_any
  exact ⟨outcome₁, outcome₂, hrun₁, hrun₂, hverdict hrun₁ hrun₂⟩

end SplitState

/-! ### A missed contradiction -/

/-- The predicates `Q` without arguments and `P` of integers, with the clauses `P(1)`, `Q → false`
and `P(if Q then 0 else 1) → false`. -/
def crossed : Instance where
  name := "crossed"
  preds := [⟨"Q", [], [], [], none⟩, ⟨"P", [.int], [.int], [0], none⟩]
  clauses := [
    ⟨0, [], [], [], some (1, [.int 1]), false, true⟩,
    ⟨1, [], [], [⟨0, [[]]⟩], none, false, true⟩,
    ⟨2, [], [], [⟨1, [[.op .ite [.fn ⟨"Q", [], .bool⟩ [], .int 0, .int 1]]]⟩], none, false, true⟩]
  users := [[1], [2]]
  producers := [[], [0]]
  holders := 0
  expansions := []

/-- That `Q` is false where it is to be, and otherwise that `Q` is true and `P!0 = 1`. -/
def guessCrossed (cs : List Clause) : Definitions :=
  if cs.any fun c => c.apps.any fun a => a.1 == 0 then [(0, .falsum), (1, .verum)]
  else [(0, .verum), (1, isOne)]

section Reading

variable {U : Universe} {M : Structure U} {J : Interpretation crossed.preds}

theorem applies_crossed_nil (hM : M.Reads J) : M.Applies crossed.preds (0, []) ↔ J.rel M 0 [] := by
  have hargs : Term.castAll? [] [] = some [] := rfl
  exact hM.applies_iff (p := 0) rfl rfl hargs rfl

/-- The argument is zero if `Q` holds, and one otherwise. -/
theorem applies_crossed_ite (hM : M.Reads J) {n : Int}
    (hn : (J.rel M 0 [] ∧ n = 0) ∨ (¬J.rel M 0 [] ∧ n = 1)) :
    M.Applies crossed.preds (1, [.op .ite [.fn ⟨"Q", [], .bool⟩ [], .int 0, .int 1]]) ↔
      J.rel M 1 [⟨.int, n⟩] := by
  have hq : M.Sat (.fn ⟨"Q", [], .bool⟩ []) ↔ J.rel M 0 [] :=
    (M.applies_iff_sat crossed.preds (p := 0) rfl rfl).symm.trans (applies_crossed_nil hM)
  have hvalue : M.eval [] (.op .ite [.fn ⟨"Q", [], .bool⟩ [], .int 0, .int 1]) = ⟨.int, n⟩ := by
    rcases hn with ⟨hrel, rfl⟩ | ⟨hrel, rfl⟩
    · rw [Structure.eval_ite_of_sat (hq.2 hrel), Term.int, Structure.eval, Literal.denote]
    · rw [Structure.eval_ite_of_not_sat (mt hq.1 hrel), Term.int, Structure.eval, Literal.denote]
  have hargs : Term.castAll? [.int] [.op .ite [.fn ⟨"Q", [], .bool⟩ [], .int 0, .int 1]] =
      some [.op .ite [.fn ⟨"Q", [], .bool⟩ [], .int 0, .int 1]] := rfl
  have happ := hM.applies_iff (p := 1) rfl rfl hargs (by rw [List.map_singleton, hvalue]; rfl)
  rwa [List.map_singleton, hvalue] at happ

end Reading

/-- The clauses are contradictory. -/
theorem not_satisfiable_crossed : ¬Satisfiable crossed.preds crossed.clauses := by
  rintro ⟨J, hJ⟩
  have hsafe : crossed.AllSafe := by decide
  obtain ⟨N, -, hN⟩ := hsafe.exists_reads (by decide) (default : Structure default) J
  -- `P(1)` is true, and `Q` is not.
  obtain ⟨a, ha, hone⟩ := hJ crossed.clauses[0] (List.getElem_mem _) _ N hN
    ⟨List.forall_mem_nil _, List.forall_mem_nil _⟩
  cases ha
  rw [hN.applies_int_iff (p := 1) rfl rfl rfl] at hone
  have hq : ¬J.rel N 0 [] := by
    intro hrel
    obtain ⟨a, ha, -⟩ := hJ crossed.clauses[1] (List.getElem_mem _) _ N hN
      ⟨List.forall_mem_nil _, List.forall_mem_singleton.2 ((applies_crossed_nil hN).2 hrel)⟩
    cases ha
  -- So the argument of the last clause is one, and its application is true.
  obtain ⟨a, ha, -⟩ := hJ crossed.clauses[2] (List.getElem_mem _) _ N hN
    ⟨List.forall_mem_nil _,
      List.forall_mem_singleton.2 ((applies_crossed_ite hN (.inr ⟨hq, rfl⟩)).2 hone)⟩
  cases ha

/-- That `Q` is or is not the case, and that `P` holds of one only. -/
def crossedReading (holds : Bool) : Interpretation crossed.preds :=
  .ofRelations crossed.preds fun p es =>
    (p = 0 ∧ holds = true) ∨ (p = 1 ∧ es = [⟨.int, (1 : ℤ)⟩])

/-- Fragments that say so. -/
theorem conjoins_crossed {holds : Bool} {fragments : Nat → List Term}
    (hq : ∀ {U : Universe} (M : Structure U), (∀ t ∈ fragments 0, M.Sat t) ↔ holds = true)
    (hp : ∀ {U : Universe} (M : Structure U), (∀ t ∈ fragments 1, M.Sat t) ↔ M.Sat isOne) :
    (crossedReading holds).Conjoins fragments := by
  intro U M p q es hpq _ hes
  -- `Q` has no arguments, `P` has one.
  match p, hpq with
  | 0, hpq =>
    rw [hq]
    simp [crossedReading, Interpretation.ofRelations]
  | 1, hpq =>
    cases hpq
    obtain ⟨e, rfl, he⟩ := fits_singleton.1 hes
    have hone : (M.assign [(⟨"P!0", .int⟩, e)]).Sat isOne ↔ e = ⟨.int, (1 : ℤ)⟩ := M.sat_eq_int he 1
    rw [hp]
    refine Iff.trans ?_ hone.symm
    simp [crossedReading, Interpretation.ofRelations]
  | p + 2, hpq => cases hpq

namespace SplitState

/-- How far a run has come: that `Q` is true is not kept, that it is false comes last. -/
inductive CrossedRun : Progress → Accumulator → Prop
  | both {m : Accumulator} : m.fragments 0 = [] → m.fragments 1 = [] →
      CrossedRun (.active [1, 2] 2) m
  | one {m : Accumulator} : m.fragments 0 = [] → m.fragments 1 = [isOne] →
      CrossedRun (.active [1] 2) m
  | none {m : Accumulator} : CrossedRun (.active [] 2) m

theorem guessable_crossed : Guessable crossed guessCrossed where
  wellFormed := by decide
  undefined := by decide
  asks := by decide
  candidates cs := by
    unfold guessCrossed
    split <;> simp only [Instance.IsCandidate, List.forall_mem_cons] <;>
      exact ⟨⟨⟨0, rfl, by decide⟩, by decide⟩, ⟨⟨1, rfl, by decide⟩, by decide⟩,
        List.forall_mem_nil _⟩

/-- The clauses come in this order. -/
theorem CrossedRun.next {pending : List Nat} {clause total : Nat} {m : Accumulator}
    (h : CrossedRun (.active (pending ++ [clause]) total) m) :
    m.fragments 0 = [] ∧ total = 2 ∧
      (pending = [1] ∧ clause = 2 ∧ m.fragments 1 = [] ∨
        pending = [] ∧ clause = 1 ∧ m.fragments 1 = [isOne]) := by
  generalize hp : pending ++ [clause] = l at h
  cases h with
  | both hq hm =>
    have hp : pending ++ [clause] = [1] ++ [2] := hp
    obtain ⟨rfl, rfl⟩ := List.append_singleton_inj.1 hp
    exact ⟨hq, rfl, .inl ⟨rfl, rfl, hm⟩⟩
  | one hq hm =>
    have hp : pending ++ [clause] = [] ++ [1] := hp
    obtain ⟨rfl, rfl⟩ := List.append_singleton_inj.1 hp
    exact ⟨hq, rfl, .inr ⟨rfl, rfl, hm⟩⟩
  | none => simp at hp

/-- What is guessed depends on the content of the clauses only. -/
theorem guessCrossed_congr {cs ds : List Clause} (h : List.Forall₂ Clause.SameContent cs ds) :
    guessCrossed ds = guessCrossed cs := by
  obtain ⟨hl, hr⟩ := exists_of_forall₂ h
  -- The guess only asks whether `Q` is applied anywhere, which is a matter of content.
  have hany : (ds.any fun c => c.apps.any fun a => a.1 == 0) =
      cs.any fun c => c.apps.any fun a => a.1 == 0 := by
    rw [Bool.eq_iff_iff]
    simp only [List.any_eq_true]
    constructor
    · rintro ⟨d, hd, a, ha, h0⟩
      obtain ⟨c, hc, hcd⟩ := hr d hd
      exact ⟨c, hc, a, (hcd.apps a).2 ha, h0⟩
    · rintro ⟨c, hc, a, ha, h0⟩
      obtain ⟨d, hd, hcd⟩ := hl c hc
      exact ⟨d, hd, a, (hcd.apps a).1 ha, h0⟩
  unfold guessCrossed
  rw [hany]

/-- What two entries for `Q` and `P` add. -/
theorem fragments_absorb_crossed (m : Accumulator) (t u : Term) :
    (m.absorb Engine.literal crossed [(0, t), (1, u)]).fragments 0 =
        Accumulator.extend Engine.literal (m.fragments 0) t ∧
      (m.absorb Engine.literal crossed [(0, t), (1, u)]).fragments 1 =
        Accumulator.extend Engine.literal (m.fragments 1) u := by
  have hnot : (m.absorb Engine.literal crossed [(0, t)]).fragments 1 = m.fragments 1 :=
    Accumulator.fragments_absorb_single (p := 1) rfl rfl m 0 t
  constructor
  · rw [Accumulator.absorb_cons]
    exact (Accumulator.fragments_absorb_single (p := 0) rfl rfl _ 1 u).trans
      (Accumulator.fragments_absorb_single (p := 0) rfl rfl m 0 t)
  · rw [Accumulator.absorb_cons, ← hnot]
    exact Accumulator.fragments_absorb_single (p := 1) rfl rfl _ 1 u

/-- The clause with `P(1)` is satisfied in any case. -/
theorem satisfies_crossed_fact (holds : Bool) :
    (crossedReading holds).Satisfies crossed.clauses[0] := fun _ _ hM _ =>
  ⟨_, rfl, (hM.applies_int_iff (p := 1) rfl rfl rfl 1).2 (.inr ⟨rfl, rfl⟩)⟩

/-- With `Q` true, the clause on `P` is satisfied. -/
theorem models_crossed_true {m : Accumulator} (hq : m.fragments 0 = []) (hm : m.fragments 1 = []) :
    Models crossed.preds (crossed.keptClauses (2 : Nat)) (m.joined [(0, .verum), (1, isOne)]) := by
  refine ⟨crossedReading true, conjoins_crossed (fun M => ?_) (fun M => ?_), ?_⟩
  · rw [Accumulator.joined, Nat.cast_zero, hq]
    exact iff_of_true (List.forall_mem_singleton.2 (M.sat_of_isVerum rfl)) rfl
  · rw [Accumulator.joined, Nat.cast_one, hm]
    exact List.forall_mem_singleton
  · refine List.forall_mem_cons.2
      ⟨satisfies_crossed_fact true, List.forall_mem_singleton.2 fun U M hM hbody => ?_⟩
    have happ := hbody.apps _ (List.mem_singleton_self _)
    rw [applies_crossed_ite hM (.inl ⟨.inl ⟨rfl, rfl⟩, rfl⟩)] at happ
    simp [crossedReading, Interpretation.ofRelations, Element.int_inj] at happ

/-- With `Q` false, the clause on `Q` is satisfied. -/
theorem models_crossed_false {m : Accumulator} (hq : m.fragments 0 = [])
    (hm : m.fragments 1 = [isOne]) :
    Models crossed.preds (crossed.keptClauses (1 : Nat))
      (m.joined [(0, .falsum), (1, .verum)]) := by
  refine ⟨crossedReading false, conjoins_crossed (fun M => ?_) (fun M => ?_), ?_⟩
  -- `Q` is false: its fragments come to `false`, whatever is joined to it.
  · rw [Accumulator.joined, Nat.cast_zero, hq]
    exact iff_of_false (fun h => M.not_sat_of_isFalsum rfl (List.forall_mem_singleton.1 h))
      Bool.false_ne_true
  -- `P` is read by the one fragment it has, since `true` adds nothing to it.
  · rw [Accumulator.joined, Nat.cast_one, hm, List.forall_mem_append]
    exact (and_iff_left (List.forall_mem_singleton.2 (M.sat_of_isVerum rfl))).trans
      List.forall_mem_singleton
  · refine List.forall_mem_cons.2
      ⟨satisfies_crossed_fact false, List.forall_mem_singleton.2 fun U M hM hbody => ?_⟩
    -- The clause is left, and its condition is `Q`, which does not hold.
    have happ := hbody.apps _ (List.mem_singleton_self _)
    rw [applies_crossed_nil hM] at happ
    simp [crossedReading, Interpretation.ofRelations] at happ

/-- A part of a run on the crossed clauses. -/
theorem CrossedRun.part {sp sp' : Splitter Unit} {m : Accumulator} {r : Reduced}
    {clauses cs : List Clause} (h : CrossedRun sp.progress m)
    (hparts : Parts Engine.literal crossed sp sp' r clauses)
    (hcs : List.Forall₂ Clause.SameContent clauses cs) :
    CrossedRun sp'.progress (m.absorb Engine.literal crossed (guessCrossed cs)) ∧
      Models crossed.preds clauses (m.joined (guessCrossed cs)) := by
  rw [guessCrossed_congr hcs]
  cases hparts with
  | whole hbefore _ =>
    rw [hbefore] at h
    cases h
  | @isolated _ pending clause total hbefore hafter _ =>
    rw [hbefore] at h
    rw [hafter]
    obtain ⟨hq, rfl, ⟨rfl, rfl, hm⟩ | ⟨rfl, rfl, hm⟩⟩ := h.next
    · -- The clause on `P` comes first, and what is learned about `Q` is true.
      have hguess : guessCrossed (crossed.keptClauses (2 : Nat)) = [(0, .verum), (1, isOne)] := by
        decide
      obtain ⟨hfirst, hsecond⟩ := fragments_absorb_crossed m .verum isOne
      rw [hguess]
      refine ⟨.one ?_ ?_, models_crossed_true hq hm⟩
      · rw [hfirst, hq]
        rfl
      · rw [hsecond, hm]
        rfl
    · -- The clause on `Q` is solved by the opposite.
      have hguess : guessCrossed (crossed.keptClauses (1 : Nat)) = [(0, .falsum), (1, .verum)] := by
        decide
      rw [hguess]
      exact ⟨.none, models_crossed_false hq hm⟩

/-- All worlds that are reached are such. -/
theorem Reaches.crossedRun {w : World (SplitState Unit Unit)}
    (hw : Reaches Engine.literal SplitConfig.default (Preprocessor.standard Engine.literal Unit)
      (Learner.guessing guessCrossed) (startWorld crossed SplitConfig.default () ()) w) :
    CrossedRun w.1.splitter.progress w.1.candidates := by
  have hstart : Splitter.start crossed .default = .active [1, 2] 2 :=
    Splitter.start_of_pairwise rfl (by decide) (by decide)
  refine hw.guessed guessable_crossed rfl ?_ fun h hparts hcs => (h.part hparts hcs).1
  rw [hstart]
  exact .both rfl rfl

/-- **The run misses the contradiction.** The instance is plain and the learner is reliable, but
an argument mentions a predicate: the clauses are contradictory, and the loop ends with a model. -/
theorem solve_misses :
    Engine.literal.Decides ∧ crossed.IsPlain ∧
    Reliable Engine.literal SplitConfig.default (Preprocessor.standard Engine.literal Unit)
      (Learner.guessing guessCrossed) (startWorld crossed SplitConfig.default () ()) ∧
    ¬Satisfiable crossed.preds crossed.clauses ∧
    ∃ outcome, (Horn.solve Engine.literal crossed SplitConfig.default
        (Preprocessor.standard Engine.literal Unit) (some (Learner.guessing guessCrossed))
          () ()).1 = .ok outcome ∧ ¬outcome.IsUnsat := by
  refine ⟨Engine.decides_literal, ⟨by decide, by decide, by decide⟩,
    reliable_guessing guessable_crossed _ rfl () fun hw hparts hcs => ?_,
    not_satisfiable_crossed, ?_⟩
  · exact (CrossedRun.part hw.crossedRun hparts hcs).2
  · obtain ⟨w, s', log, -, -, hrun⟩ :=
      solve_guessing guessable_crossed SplitConfig.default rfl ()
    rw [hrun]
    exact ⟨_, rfl, fun ⟨reason, h⟩ => by cases h⟩

end SplitState
end Horn
