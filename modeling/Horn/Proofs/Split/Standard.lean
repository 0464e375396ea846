import Horn.Proofs.Split.Run
import Horn.Proofs.Split.Trivial

/-!
# Runs with the standard preprocessor

The standard preprocessor isolates a negative clause and decides the sub-instance if it can. On a
well-formed instance it does not fail (`reduceClause_runs`): what it hands over has the predicates
of the instance, the clauses with a conclusion and the isolated clause (`Instance.Isolates`).

In a run with it the splitter keeps the instance, and the pending clauses are negative clauses of
the instance (`SplitState.Tidy`, which `Reaches.tidy` shows of all worlds that are reached). So
every part that is produced is the instance itself or an isolated clause of it
(`SplitState.Parts`), and without definitions a run only fails if the learner does
(`solve_standard_runs`).
-/

namespace Horn

/-! ### Isolating a clause -/

namespace Instance

variable {engine : Engine} {inst : Instance}

/-- A clause with a conclusion is kept whichever clause is isolated. -/
theorem mem_keptClauses_of_conclusion {c : Clause} (hc : c ∈ inst.clauses)
    (hpos : c.conclusion ≠ none) (isolated : Int) : c ∈ inst.keptClauses isolated := by
  refine List.mem_filter.2 ⟨hc, ?_⟩
  rw [Option.isSome_iff_ne_none.2 hpos, Bool.true_or]

/-- The isolated clause is kept. -/
theorem mem_keptClauses_self {c : Clause} (hc : c ∈ inst.clauses) :
    c ∈ inst.keptClauses c.index := by
  refine List.mem_filter.2 ⟨hc, ?_⟩
  rw [beq_self_eq_true, Bool.or_true]

/-- What isolating a negative clause gives: the derived sub-instance, unless that is decided. -/
inductive Isolates (engine : Engine) (inst : Instance) (clause : Nat) : Reduced → Prop
  | left {sub : Instance} : Derived inst sub (inst.keptClauses clause) →
      Isolates engine inst clause (.sub sub)
  | decided {sub : Instance} {answer : Option Definitions} :
      Derived inst sub (inst.keptClauses clause) → Decided engine sub answer →
      Isolates engine inst clause (.trivial answer)

/-- Being derived is a matter of the predicates. -/
theorem Derived.congr {inst' sub : Instance} {cs : List Clause} (h : Derived inst' sub cs)
    (hp : inst'.preds = inst.preds) : Derived inst sub cs :=
  ⟨h.wellFormed, h.preds.trans hp, h.clauses, h.holders, h.expansions⟩

/-- Being well-formed is a matter of the predicates and the clauses. -/
theorem WellFormed.congr {inst' : Instance} (h : inst.WellFormed) (hp : inst'.preds = inst.preds)
    (hc : inst'.clauses = inst.clauses) : inst'.WellFormed := by
  refine ⟨by rw [hp]; exact h.names, by rw [hc]; exact h.index, fun c hcm => ?_⟩
  rw [hc] at hcm
  exact (h.clauses c hcm).mono (l := []) (by rw [hp, List.append_nil])

/-- Isolating is a matter of the predicates and the clauses. -/
theorem Isolates.congr {inst' : Instance} {clause : Nat} {r : Reduced}
    (h : Isolates engine inst' clause r) (hp : inst'.preds = inst.preds)
    (hc : inst'.clauses = inst.clauses) : Isolates engine inst clause r := by
  have hkept : inst'.keptClauses clause = inst.keptClauses clause := by
    rw [keptClauses, keptClauses, hc]
  cases h with
  | left h =>
    rw [hkept] at h
    exact .left (h.congr hp)
  | decided h hdec =>
    rw [hkept] at h
    exact .decided (h.congr hp) hdec

end Instance

/-- **Isolating a clause** of a well-formed instance does not fail. -/
theorem reduceClause_runs {κ : Type} (engine : Engine) {inst : Instance} (hinst : inst.WellFormed)
    {c : Clause} (hc : c ∈ inst.clauses) (hneg : c.conclusion = none) (excluded : List Nat)
    (w : World κ) : ∃ r w', (reduceClause engine inst c.index excluded).runFrom w = (.ok r, w') ∧
      Instance.Isolates engine inst c.index r := by
  obtain ⟨sub, hisolate, hsub⟩ := hinst.isolate c.index
  unfold reduceClause
  rw [hinst.clause_index hc, Act.runFrom_bind_of_ok (Act.runFrom_ofExcept _ w), hneg,
    Option.isSome_none, if_neg Bool.false_ne_true, hisolate]
  dsimp only
  rw [Act.runFrom_bind_of_ok (Act.runFrom_ofExcept _ w),
    Act.runFrom_bind_of_ok (Act.runFrom_debug _ _ w)]
  -- After the isolation the sub-instance is left to the decision.
  generalize w.2 ++ _ = log
  obtain ⟨answer, log', hanswer⟩ := trivialModel_runs engine hsub.wellFormed (w.1, log)
  rw [Act.runFrom_bind_of_ok hanswer]
  cases answer with
  | none => exact ⟨_, _, rfl, .left hsub⟩
  | some model =>
    exact ⟨_, _, rfl, .decided hsub (decided_of_trivialModel hsub.wellFormed hanswer)⟩

namespace SplitState

variable {π κ : Type} {engine : Engine} {config : SplitConfig} {learner : Learner κ}
  {inst : Instance} {p₀ : π} {l₀ : κ}

/-! ### The invariant -/

/-- The splitter keeps the instance, and its pending clauses are negative clauses of it. -/
structure Tidy (inst : Instance) (config : SplitConfig) (p₀ : π) (sp : Splitter π) : Prop where
  keeps : (Splitter.create inst config p₀).Keeps sp
  negative : ∀ pending total, sp.progress = .active pending total → ∀ i ∈ pending,
    ∃ c ∈ inst.clauses, c.conclusion = none ∧ c.index = i

/-- What is produced between two states of a splitter, with the clauses that it stands for: the
instance itself, or what the isolation of the next clause gives. -/
inductive Parts (engine : Engine) (inst : Instance) (sp sp' : Splitter π) :
    Reduced → List Clause → Prop
  | whole : sp.progress = .inactive false → sp'.progress = .inactive true →
      Parts engine inst sp sp' .whole inst.clauses
  | isolated {r : Reduced} {pending : List Nat} {clause total : Nat} :
      sp.progress = .active (pending ++ [clause]) total → sp'.progress = .active pending total →
      Instance.Isolates engine inst clause r → Parts engine inst sp sp' r (inst.keptClauses clause)

/-- A part that is handed over remembers nothing. -/
theorem Parts.remembers {sp sp' : Splitter π} {r : Reduced} {clauses : List Clause}
    (h : Parts engine inst sp sp' r clauses) {callable : Callable} (part : Instance)
    (hr : r = .sub part) : part.Remembers callable part.expansions := by
  subst hr
  cases h with
  -- The instance itself is no sub-instance, so the part has been derived.
  | isolated _ _ h =>
    cases h with
    | left hsub =>
      rw [hsub.expansions]
      intro e he
      cases he

/-- A part has the predicates of the instance and the clauses that it stands for. -/
theorem Parts.content {sp : Splitter π} {s : SplitState π κ} {r : Reduced} {clauses : List Clause}
    (h : Parts engine inst sp s.splitter r clauses)
    (hkeeps : (Splitter.create inst config p₀).Keeps s.splitter) {reduced : Option Instance}
    (hr : r = ofPart reduced) : (s.given reduced).preds = inst.preds ∧
      List.Forall₂ Clause.SameContent clauses (s.given reduced).clauses := by
  cases h with
  | whole _ _ =>
    obtain rfl : reduced = none := by
      cases reduced with
      | none => rfl
      | some part => cases hr
    have hcs : (s.given none).clauses = inst.clauses := hkeeps.clauses
    refine ⟨hkeeps.preds, ?_⟩
    rw [hcs]
    exact List.forall₂_same.2 fun c _ => .refl c
  | isolated _ _ h =>
    -- Isolation gives a new part; a decision hands no part over.
    cases h with
    | left hsub =>
      cases reduced with
      | none => cases hr
      | some part =>
        cases hr
        exact ⟨hsub.preds, hsub.clauses⟩
    | decided _ _ => cases reduced <;> cases hr

/-- A part stands for clauses of the instance. -/
theorem Parts.subset {sp sp' : Splitter π} {r : Reduced} {clauses : List Clause}
    (h : Parts engine inst sp sp' r clauses) : clauses ⊆ inst.clauses := by
  cases h with
  | whole _ _ => exact List.Subset.refl _
  | isolated _ _ _ => exact fun _ hc => List.mem_of_mem_filter hc

/-- The pending clauses of a new splitter are negative. -/
theorem tidy_create (inst : Instance) (config : SplitConfig) (p₀ : π) :
    Tidy inst config p₀ (Splitter.create inst config p₀) := by
  refine ⟨Splitter.Keeps.refl _, fun pending total h i hi => ?_⟩
  change Splitter.start inst config = _ at h
  rcases Splitter.start_cases inst config with ⟨-, hstart⟩ | hstart
  · rw [hstart] at h
    cases h
    exact Instance.mem_splitOrder.1 hi
  · rw [hstart] at h
    cases h

/-- The standard preprocessor does not fail on the next clause, and it isolates it. -/
theorem Tidy.preprocesses (hinst : inst.WellFormed)
    {w : World (Splitter π)} (h : Tidy inst config p₀ w.1) {pending : List Nat} {clause total : Nat}
    (hprog : w.1.progress = .active (pending ++ [clause]) total) :
    ∃ r v, Splitter.Preprocesses (Preprocessor.standard engine π)
      ({ w.1 with progress := .active pending total }, w.2) clause (.ok r) v ∧
      Instance.Isolates engine inst clause r := by
  obtain ⟨c, hc, hneg, rfl⟩ := h.negative _ _ hprog clause (by simp)
  have hp : w.1.top.preds = inst.preds := h.keeps.preds
  have hcs : w.1.top.clauses = inst.clauses := h.keeps.clauses
  have hopen : w.1.isOpen = true := h.keeps.isOpen
  obtain ⟨r, v, hrun, hiso⟩ := reduceClause_runs engine (hinst.congr hp hcs) (hcs ▸ hc) hneg
    w.1.isolated ((w.1.preprocessor, w.2) : World (Visitor π))
  refine ⟨r, v, ?_, hiso.congr hp hcs⟩
  -- An open splitter passes the instance that it holds.
  unfold Splitter.Preprocesses Splitter.held?
  dsimp only
  rw [if_pos hopen]
  exact hrun

/-- **A production** with the standard preprocessor. -/
theorem Tidy.parts (hinst : inst.WellFormed) {w w₁ : World (Splitter π)}
    {r : Reduced} (h : Tidy inst config p₀ w.1)
    (hadv : Splitter.Advances (Preprocessor.standard engine π) w r w₁) :
    Tidy inst config p₀ w₁.1 ∧ ∃ clauses, Parts engine inst w.1 w₁.1 r clauses := by
  have hkeeps := h.keeps.trans hadv.keeps
  cases hadv with
  | whole hbefore hw =>
    have hprog : w₁.1.progress = .inactive true := by rw [hw]
    refine ⟨⟨hkeeps, fun pending total hp => ?_⟩, _, .whole hbefore hprog⟩
    rw [hprog] at hp
    cases hp
  | @isolated _ _ pending clause total v hbefore hpre hw =>
    have hprog : w₁.1.progress = .active pending total := by rw [hw]
    obtain ⟨r', v', hpre', hiso⟩ := h.preprocesses hinst hbefore
    -- The preprocessor gives one answer.
    obtain rfl : r = r' := by
      unfold Splitter.Preprocesses at hpre hpre'
      exact Except.ok.inj (Prod.mk.inj (hpre.symm.trans hpre')).1
    -- The clauses that are left were pending before.
    refine ⟨⟨hkeeps, fun pending' total' hp i hi => ?_⟩, _, .isolated hbefore hprog hiso⟩
    rw [hprog] at hp
    cases hp
    exact h.negative _ _ hbefore i (List.mem_append_left _ hi)

/-- What has been handled without a contradiction leaves the splitter tidy. -/
theorem Tidy.handled {w w' : World (SplitState π κ)} {r : Reduced}
    (h : Tidy inst config p₀ w.1.splitter) (hhandled : Handled engine learner w r none w') :
    Tidy inst config p₀ w'.1.splitter :=
  ⟨h.keeps.trans hhandled.keeps, hhandled.progress ▸ h.negative⟩

/-- **The first half of a round** with the standard preprocessor. -/
theorem Tidy.produces (hinst : inst.WellFormed) {w w₁ : World (SplitState π κ)} {r : Reduced}
    (h : Tidy inst config p₀ w.1.splitter)
    (hprod : Produces config (Preprocessor.standard engine π) w r w₁) :
    Tidy inst config p₀ w₁.1.splitter ∧ w₁.1.candidates = w.1.candidates ∧
      ∃ clauses, Parts engine inst w.1.splitter w₁.1.splitter r clauses := by
  rcases produce_ok h.keeps.isOpen hprod with ⟨hr, -⟩ | ⟨r', log, hr, hsame, hadv⟩
  · cases hr
  · obtain rfl := Option.some.inj hr
    obtain ⟨htidy, hparts⟩ := Tidy.parts (w := (w.1.splitter, log)) hinst h hadv
    exact ⟨htidy, by rw [hsame], hparts⟩

/-- **The second half of a round** with the standard preprocessor. -/
theorem Parts.handled (hinfer : config.infer = true) {w w₁ w' : World (SplitState π κ)}
    {r : Reduced} {clauses : List Clause} {answer : Option String} (hheld : w.1.HoldsTop)
    (h : Tidy inst config p₀ w.1.splitter)
    (hprod : Produces config (Preprocessor.standard engine π) w r w₁)
    (hparts : Parts engine inst w.1.splitter w₁.1.splitter r clauses)
    (hhandle : (handle engine config (some learner) r).runFrom w₁ = (.ok answer, w')) :
    Handled engine learner w₁ r answer w' := by
  obtain ⟨-, -, hhandled⟩ := round_ok hinfer hheld h.keeps hprod hparts.remembers
  exact hhandled _ _ hhandle

/-- **The invariant.** In all worlds that are reached the splitter is tidy. -/
theorem Reaches.tidy (hinst : inst.WellFormed) (hinfer : config.infer = true)
    {w : World (SplitState π κ)}
    (hw : Reaches engine config (Preprocessor.standard engine π) learner
      (startWorld inst config p₀ l₀) w) : Tidy inst config p₀ w.1.splitter := by
  refine hw.invariant (P := fun w => Tidy inst config p₀ w.1.splitter) ?_
    fun hreached hbefore hprod hhandle => ?_
  · rw [startWorld_fst]
    exact tidy_create inst config p₀
  · obtain ⟨htidy, -, clauses, hparts⟩ := hbefore.produces hinst hprod
    exact htidy.handled (hparts.handled hinfer hreached.holdsTop hbefore hprod hhandle)

/-- The parts of a run with the standard preprocessor remember nothing. -/
theorem partsRemember_standard (hinst : inst.WellFormed)
    (hinfer : config.infer = true) : PartsRemember engine config (Preprocessor.standard engine π)
      learner (startWorld inst config p₀ l₀) := by
  intro w w₁ part hw hprod
  obtain ⟨-, -, clauses, hparts⟩ := (hw.tidy hinst hinfer).produces hinst hprod
  exact hparts.remembers part rfl

/-! ### No failure -/

/-- **No failure.** A run with the standard preprocessor on an instance without definitions ends if
the learner does not fail and answers with candidates for its parts, and if the engine takes the
calls that rebuild their formulas. -/
theorem solve_standard_runs (hcall : engine.callable.Reapplies) (hinst : inst.WellFormed)
    (hundef : ∀ q ∈ inst.preds, q.definition = none) (hinfer : config.infer = true)
    (hanswers : ∀ {w w₁ w₂ reduced answer},
      Reaches engine config (Preprocessor.standard engine π) learner
        (startWorld inst config p₀ l₀) w →
      Produces config (Preprocessor.standard engine π) w (ofPart reduced) w₁ →
      Asks learner reduced w₁ answer w₂ →
      ∃ a, answer = .ok a ∧ ∀ candidate, a = .candidate candidate →
        (w₁.1.given reduced).IsCandidate candidate) :
    ∃ outcome s' log, Horn.solve engine inst config (Preprocessor.standard engine π) (some learner)
      p₀ l₀ = (.ok outcome, s', log) := by
  refine solve_runs hinfer (partsRemember_standard hinst hinfer) ?_ ?_
  · -- Producing a part does not fail, since the next clause can be isolated.
    intro w hw
    refine produce_runs fun log => Splitter.advance_runs fun pending clause total hprog => ?_
    obtain ⟨r, v, hpre, -⟩ :=
      (hw.tidy hinst hinfer).preprocesses (w := (w.1.splitter, log)) hinst hprog
    exact ⟨r, v, hpre⟩
  · intro w w₁ r hw hprod
    obtain ⟨htidy, -, clauses, hparts⟩ := (hw.tidy hinst hinfer).produces hinst hprod
    refine handle_runs hinfer (holdsTop_produce hprod hw.holdsTop) hparts.remembers ?_ ?_
    · -- A partial model is the empty one.
      rintro model rfl
      cases hparts with
      | isolated _ _ h =>
        cases h with
        | decided _ hdec =>
          cases hdec <;> exact List.forall_mem_nil _
    · rintro reduced answer w₂ rfl hask
      obtain ⟨a, rfl, hcand⟩ := hanswers hw hprod hask
      refine ⟨a, rfl, ?_⟩
      rintro candidate rfl
      replace hcand := hcand candidate rfl
      obtain ⟨hpreds, -⟩ := hparts.content htidy.keeps rfl
      have hleft : w₂.1.lastPart.preds = inst.preds := hask.preds_lastPart.trans hpreds
      have hundef' : ∀ q ∈ w₂.1.lastPart.preds, q.definition = none := by
        rw [hleft]
        exact hundef
      have hdraft := (hcand.congr (hleft.trans hpreds.symm)).isDraft
      have hcollected : w₂.1.lastPart.collected engine candidate = _ :=
        Instance.collected_of_taken engine hundef' hdraft fun e he =>
          .of_isWellSorted hcall (hcand e he).2.wellSorted
      -- All entries are about predicates that the accumulator can extend.
      have htop : w₁.1.splitter.top.preds = inst.preds := htidy.keeps.preds
      exact ⟨_, hcollected, fun e he => ⟨false, Accumulator.isKnown_of_collected
        (htop.trans hleft.symm) hundef' hdraft hcollected e he⟩⟩

end SplitState
end Horn
