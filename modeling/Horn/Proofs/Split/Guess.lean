import Horn.Proofs.Split.Standard

/-!
# Learners that guess

`Learner.guessing f` answers every part with the candidate that `f` gives for its clauses. Its runs
on an instance without definitions are easy to follow if no decision is trivial, because every
negative clause has an application (`Instance.AlwaysAsks`): every round absorbs the candidate for
the clauses of the part (`Tidy.guess`), and the run ends with a model when nothing remains
(`solve_guessing`).
-/

namespace Horn

/-- A learner that answers every part with a candidate, which depends on the clauses of the part. -/
def Learner.guessing (f : List Clause → Definitions) : Learner Unit where
  solve part _ := pure (.candidate (f part.clauses))

namespace Instance

variable {engine : Engine} {inst : Instance}

/-- Nothing is decided without a learner. -/
def AlwaysAsks (inst : Instance) : Prop :=
  ∀ c ∈ inst.clauses, c.conclusion = none → c.apps ≠ []

instance (inst : Instance) : Decidable inst.AlwaysAsks :=
  inferInstanceAs (Decidable (∀ c ∈ inst.clauses, c.conclusion = none → c.apps ≠ []))

/-- A clause that is isolated is then left to the learner. -/
theorem Isolates.asks {r : Reduced} {c : Clause} (h : Isolates engine inst c.index r)
    (hc : c ∈ inst.clauses) (hneg : c.conclusion = none) (hasks : inst.AlwaysAsks) :
    ∃ sub, r = .sub sub ∧ Derived inst sub (inst.keptClauses c.index) := by
  cases h with
  | left hsub => exact ⟨_, rfl, hsub⟩
  | @decided sub answer hsub hdec =>
    exfalso
    obtain ⟨hl, hr⟩ := exists_of_forall₂ hsub.clauses
    -- The negative clauses of the sub-instance have applications, too.
    have huses : ∀ d ∈ sub.clauses.filter (·.isNegative), d.uses ≠ [] := by
      intro d hd hnil
      obtain ⟨hd, hdneg⟩ := List.mem_filter.1 hd
      obtain ⟨b, hb, hbd⟩ := hr d hd
      refine hasks b (List.mem_of_mem_filter hb) ?_ ?_
      · rw [hbd.conclusion]
        exact Option.isNone_iff_eq_none.1 hdneg
      · refine List.eq_nil_iff_forall_not_mem.2 fun a ha => ?_
        rw [hbd.apps, Clause.apps, hnil] at ha
        cases ha
    -- Each of the three reasons contradicts that.
    cases hdec with
    | noNegative hnone =>
      -- The isolated clause is among the negative ones.
      obtain ⟨d, hd, hcd⟩ := hl c (mem_keptClauses_self hc)
      refine List.filter_eq_nil_iff.1 hnone d hd ?_
      rw [Clause.isNegative, ← hcd.conclusion, hneg]
      rfl
    | vacuous hd hnil _ => exact huses _ (hd ▸ List.mem_singleton_self _) hnil
    | contradiction hd hnil _ => exact huses _ (hd ▸ List.mem_singleton_self _) hnil

end Instance

namespace SplitState

variable {π : Type} {config : SplitConfig} {inst : Instance} {p₀ : π}
  {f : List Clause → Definitions}

/-- The answer of a learner that guesses. -/
theorem Asks.guessing {reduced : Option Instance} {w w' : World (SplitState π Unit)}
    {answer : Except Fault Learned} (h : Asks (Learner.guessing f) reduced w answer w') :
    answer = .ok (.candidate (f (w.1.given reduced).clauses)) := by
  unfold Asks at h
  cases h
  rfl

/-- What is assumed about an instance and the candidates. -/
structure Guessable (inst : Instance) (f : List Clause → Definitions) : Prop where
  wellFormed : inst.WellFormed
  undefined : ∀ q ∈ inst.preds, q.definition = none
  asks : inst.AlwaysAsks
  candidates : ∀ cs, inst.IsCandidate (f cs)

/-- Nothing that is produced is decided. -/
theorem Parts.ne_trivial (hasks : inst.AlwaysAsks) {sp sp' : Splitter π} {r : Reduced}
    {clauses : List Clause} (h : Tidy inst config p₀ sp)
    (hparts : Parts Engine.literal inst sp sp' r clauses) (answer : Option Definitions) :
    r ≠ .trivial answer := by
  rintro rfl
  cases hparts with
  | isolated hprog _ hiso =>
    obtain ⟨c, hc, hneg, rfl⟩ := h.negative _ _ hprog _
      (List.mem_append_right _ (List.mem_singleton_self _))
    obtain ⟨sub, hr, -⟩ := hiso.asks hc hneg hasks
    cases hr

/-- **A round with a learner that guesses.** The part at hand is left to the learner, and what it
answers is absorbed. -/
theorem Tidy.guess (hg : Guessable inst f) (hinfer : config.infer = true)
    {w w₁ w' : World (SplitState π Unit)} {r : Reduced} {answer : Option String}
    (hheld : w.1.HoldsTop) (h : Tidy inst config p₀ w.1.splitter)
    (hprod : Produces config (Preprocessor.standard Engine.literal π) w r w₁)
    (hhandle : (handle Engine.literal config (some (Learner.guessing f)) r).runFrom w₁ =
      (.ok answer, w')) :
    answer = none ∧ ∃ reduced clauses, r = ofPart reduced ∧
      Parts Engine.literal inst w.1.splitter w₁.1.splitter r clauses ∧
      w'.1.splitter.progress = w₁.1.splitter.progress ∧ w'.1.candidates =
        w₁.1.candidates.absorb Engine.literal inst (f (w₁.1.given reduced).clauses) := by
  obtain ⟨htidy, -, clauses, hparts⟩ := h.produces hg.wellFormed hprod
  have hleft := hparts.ne_trivial hg.asks h
  -- Only a candidate can have been answered.
  cases hparts.handled hinfer hheld h hprod hhandle with
  | refuted => exact absurd rfl (hleft _)
  | decided _ _ _ => exact absurd rfl (hleft _)
  | unsat _ hask _ => cases hask.guessing
  | @learned _ reduced candidate defs w₂ _ hpart hask hdefs _ hprog hcand =>
    refine ⟨rfl, reduced, clauses, hpart, hparts, hprog, ?_⟩
    cases hask.guessing
    -- The engine does not simplify, so the candidate is collected as it is.
    obtain ⟨hpreds, -⟩ := hparts.content htidy.keeps hpart
    have hleftPreds : w₂.1.lastPart.preds = inst.preds := hask.preds_lastPart.trans hpreds
    have hcollected :
        w₂.1.lastPart.collected Engine.literal (f (w₁.1.given reduced).clauses) = _ :=
      Instance.collected_of_taken Engine.literal (by rw [hleftPreds]; exact hg.undefined)
        ((hg.candidates _).congr hleftPreds).isDraft fun e _ => Term.takenBy_any e.2
    have hsame : (f (w₁.1.given reduced).clauses).map
        (fun e => (e.1, Engine.literal.simplify e.2)) = f (w₁.1.given reduced).clauses :=
      List.map_id _
    rw [hsame, ite_self, hdefs] at hcollected
    rw [hcand, Except.ok.inj hcollected]
    exact Accumulator.absorb_congr htidy.keeps.preds _ _

/-- What the start has and every part preserves holds in all worlds that are reached. -/
theorem Reaches.guessed {P : Progress → Accumulator → Prop} (hg : Guessable inst f)
    (hinfer : config.infer = true) {w : World (SplitState π Unit)}
    (hw : Reaches Engine.literal config (Preprocessor.standard Engine.literal π)
      (Learner.guessing f) (startWorld inst config p₀ ()) w)
    (hstart : P (Splitter.start inst config) Accumulator.empty)
    (hpart : ∀ {sp sp' : Splitter π} {m r clauses cs}, P sp.progress m →
      Parts Engine.literal inst sp sp' r clauses → List.Forall₂ Clause.SameContent clauses cs →
      P sp'.progress (m.absorb Engine.literal inst (f cs))) :
    P w.1.splitter.progress w.1.candidates := by
  refine hw.invariant (P := fun w => P w.1.splitter.progress w.1.candidates) ?_
    fun {w w₁ w' r} hw hP hprod hhandle => ?_
  · rw [startWorld_fst]
    exact hstart
  · have htidy := hw.tidy hg.wellFormed hinfer
    obtain ⟨-, reduced, clauses, hp, hparts, hprog, hcand⟩ :=
      htidy.guess hg hinfer hw.holdsTop hprod hhandle
    obtain ⟨hafter, hsame, -⟩ := htidy.produces hg.wellFormed hprod
    obtain ⟨-, hcontent⟩ := hparts.content hafter.keeps hp
    rw [hprog, hcand, hsame]
    exact hpart hP hparts hcontent

/-- If the candidates satisfy the clauses that the parts stand for, they satisfy the parts. -/
theorem models_guessed (hg : Guessable inst f) (hinfer : config.infer = true)
    {w w₁ : World (SplitState π Unit)} {reduced : Option Instance}
    (hw : Reaches Engine.literal config (Preprocessor.standard Engine.literal π)
      (Learner.guessing f) (startWorld inst config p₀ ()) w)
    (hprod : Produces config (Preprocessor.standard Engine.literal π) w (ofPart reduced) w₁)
    (hmodel : ∀ clauses,
      Parts Engine.literal inst w.1.splitter w₁.1.splitter (ofPart reduced) clauses →
      List.Forall₂ Clause.SameContent clauses (w₁.1.given reduced).clauses →
      Models inst.preds clauses (w.1.candidates.joined (f (w₁.1.given reduced).clauses))) :
    (w₁.1.given reduced).preds = inst.preds ∧
      Models (w₁.1.given reduced).preds (w₁.1.given reduced).clauses
        (w₁.1.candidates.joined (f (w₁.1.given reduced).clauses)) := by
  obtain ⟨htidy, hsame, clauses, hparts⟩ :=
    (hw.tidy hg.wellFormed hinfer).produces hg.wellFormed hprod
  obtain ⟨hpreds, hcontent⟩ := hparts.content htidy.keeps rfl
  rw [hpreds, hsame]
  exact ⟨rfl, (hmodel clauses hparts hcontent).mono (exists_of_forall₂ hcontent).2⟩

/-- **A run with a learner that guesses** ends with a model. -/
theorem solve_guessing (hg : Guessable inst f) (config : SplitConfig)
    (hinfer : config.infer = true) (p₀ : π) :
    ∃ w s' log, Reaches Engine.literal config (Preprocessor.standard Engine.literal π)
        (Learner.guessing f) (startWorld inst config p₀ ()) w ∧
      w.1.splitter.progress.remaining = 0 ∧
      Horn.solve Engine.literal inst config (Preprocessor.standard Engine.literal π)
        (some (Learner.guessing f)) p₀ () = (.ok (.model w.1.candidates), s', log) := by
  obtain ⟨outcome, s', log, hrun⟩ : ∃ outcome s' log, Horn.solve Engine.literal inst config
      (Preprocessor.standard Engine.literal π) (some (Learner.guessing f)) p₀ () =
        (.ok outcome, s', log) := by
    refine solve_standard_runs Callable.reapplies_any hg.wellFormed hg.undefined hinfer
      fun hw hprod hask => ?_
    obtain ⟨htidy, -, clauses, hparts⟩ :=
      (hw.tidy hg.wellFormed hinfer).produces hg.wellFormed hprod
    obtain ⟨hpreds, -⟩ := hparts.content htidy.keeps rfl
    refine ⟨_, hask.guessing, fun candidate hc => ?_⟩
    cases hc
    exact (hg.candidates _).congr hpreds
  obtain ⟨answer, w, w', hw, hstop, rfl⟩ :=
    solve_ok hinfer (partsRemember_standard hg.wellFormed hinfer) hrun
  -- A guess is never a refusal, so the run stops when nothing remains.
  cases hstop with
  | finished hrem hsame =>
    rw [hsame] at hrun
    exact ⟨w, s', log, hw, hrem, hrun⟩
  | refuted hprod hhandle =>
    obtain ⟨hnone, -⟩ := (hw.tidy hg.wellFormed hinfer).guess hg hinfer hw.holdsTop hprod hhandle
    cases hnone

end SplitState
end Horn
