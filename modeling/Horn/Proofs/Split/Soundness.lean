import Horn.Proofs.Instance.Safe
import Horn.Proofs.Split.Guess

/-!
# The model of the split loop

Each part is only solved relative to what has been learned before. `solve_sound` says that the
accumulator with which the loop ends nevertheless satisfies all clauses of the instance at once,
whatever the collaborators are, if they are right about the parts of this run
(`SplitState.Trusted`).

The invariant (`SplitState.Sound`) is that the accumulator satisfies the clauses that are *settled*:
the negative clauses that are no longer pending, and, once a part has been handled, all clauses with
a conclusion. In a round (`Sound.round`)

* the clauses with a conclusion and the clause that is isolated are satisfied anew, since the
  fragments that the accumulator has afterwards mean what the fragments before and the new ones mean
  together (`Accumulator.sat_absorb`);
* the negative clauses that were settled before stay satisfied, since the interpretation becomes
  smaller (`Interpretation.satisfies_of_le`).

The second step needs negative clauses that do not mention undefined predicates in their side
conditions or arguments. `solve_unsound` shows that it fails otherwise.
-/

namespace Horn

/-- Formulas that apply no predicate of a table. -/
def Definitions.Fragments (preds : List Predicate) (model : Definitions) : Prop :=
  ∀ e ∈ model, e.2.IsFormula ∧ ∀ q ∈ preds, q.symbol ∉ e.2.symbols

/-! ### What is collected -/

namespace Definitions

/-- A map that has no entry for a predicate. -/
theorem formulas_eq_nil {defs : Definitions} {p : Int} (h : p ∉ defs.map (·.1)) :
    defs.formulas p = [] := by
  unfold formulas
  rw [List.map_eq_nil_iff, List.filter_eq_nil_iff]
  intro e he hep
  rw [beq_iff_eq] at hep
  exact h (List.mem_map.2 ⟨e, he, hep⟩)

/-- The formulas of a map that is changed formula by formula. -/
theorem formulas_map (defs : Definitions) (f : Term → Term) (p : Int) :
    Definitions.formulas (defs.map fun e => (e.1, f e.2)) p = (defs.formulas p).map f := by
  unfold formulas
  rw [List.filter_map, List.map_map, List.map_map]
  rfl

end Definitions

/-- **What is collected** from fragments for a part means what the fragments mean: completing them
concerns defined predicates only, expanding them changes nothing unless it fails, and simplifying
them keeps their meaning. -/
theorem Instance.sat_collected {engine : Engine} (hS : engine.Simplifies) {part : Instance}
    {candidate defs : Definitions} (hc : candidate.Fragments part.preds)
    (h : part.collected engine candidate = .ok defs) {p : Nat} {q : Predicate}
    (hp : part.preds[p]? = some q) (hq : q.definition = none) :
    (∀ t ∈ defs.formulas p, t.IsFormula) ∧
      ∀ {U : Universe} (M : Structure U),
        (∀ t ∈ defs.formulas p, M.Sat t) ↔ ∀ t ∈ candidate.formulas p, M.Sat t := by
  -- What has been expanded is what an engine expands that takes every call.
  obtain ⟨full, hfull, h⟩ :=
    bind_eq_ok.1 ((Instance.collected_unlessRefused engine part candidate).ok h)
  obtain ⟨rest, rfl, hrest⟩ := Instance.definitionsFrom_ok hfull
  -- The completion has no entry for an undefined predicate.
  have hnone : (p : Int) ∉ rest.map (·.1) := by
    rw [List.mem_map]
    rintro ⟨e, he, hep⟩
    obtain ⟨i, q', hi, hq', hdef⟩ := (hrest e he).isDefined
    rw [hep, Nat.cast_inj] at hi
    subst hi
    obtain rfl := Option.some.inj (hp.symm.trans hq')
    exact hdef hq
  have hform : ∀ t ∈ candidate.formulas p, t.IsFormula := fun t ht =>
    (hc _ (Definitions.mem_formulas.1 ht)).1
  -- Only what is exclusively held is simplified.
  by_cases hex : part.isExclusive = true
  · rw [if_pos hex] at h
    have hself : ∀ e ∈ candidate, part.expand e.2 = .ok e.2 := fun e he =>
      Instance.expand_eq_self (.of_isWellSorted (hc e he).1.wellSorted)
        (Instance.Expanded.of_free (hc e he).2)
    rw [Instance.simplified_append engine.lenient hself] at h
    cases hr : part.simplified engine.lenient rest with
    | error e =>
      rw [hr] at h
      cases h
    | ok rest' =>
      rw [hr] at h
      cases h
      rw [← Instance.simplified_keys hr] at hnone
      rw [Definitions.formulas_append, Definitions.formulas_eq_nil hnone, List.append_nil,
        Definitions.formulas_map]
      refine ⟨?_, fun M => ?_⟩
      · rw [List.forall_mem_map]
        exact fun t ht => hS.isFormula (hform t ht)
      · rw [List.forall_mem_map]
        exact forall₂_congr fun t ht => hS.sat_iff (hform t ht) M
  · rw [if_neg hex] at h
    cases h
    rw [Definitions.formulas_append, Definitions.formulas_eq_nil hnone, List.append_nil]
    exact ⟨hform, fun M => Iff.rfl⟩

/-! ### The invariant -/

/-- A clause whose turn is over: a negative clause that is no longer pending, or a clause with a
conclusion once a part has been produced. -/
def Splitter.Settled {π : Type} (sp : Splitter π) (c : Clause) : Prop :=
  match sp.progress with
  | .active pending total =>
    (c.conclusion = none ∧ c.index ∉ pending) ∨ (c.conclusion ≠ none ∧ pending.length < total)
  | .inactive fired => fired = true

/-- Isolating a clause settles the clauses that are kept with it, and no others. -/
theorem Splitter.Settled.of_isolated {π : Type} {sp sp' : Splitter π} {pending : List Nat}
    {clause total : Nat} (hbefore : sp.progress = .active (pending ++ [clause]) total)
    (hafter : sp'.progress = .active pending total) {inst : Instance} {c : Clause}
    (hc : c ∈ inst.clauses) (h : sp'.Settled c) :
    c ∈ inst.keptClauses clause ∨ (c.conclusion = none ∧ sp.Settled c) := by
  rw [Splitter.Settled, hafter] at h
  rcases h with ⟨hnone, hnot⟩ | ⟨hsome, -⟩
  · by_cases hi : c.index = clause
    · rw [← hi]
      exact .inl (Instance.mem_keptClauses_self hc)
    · -- A negative clause that was settled before.
      refine .inr ⟨hnone, ?_⟩
      rw [Splitter.Settled, hbefore]
      refine .inl ⟨hnone, fun hmem => ?_⟩
      rw [List.mem_append, List.mem_singleton] at hmem
      exact hmem.elim hnot hi
  · exact .inl (Instance.mem_keptClauses_of_conclusion hc hsome _)

namespace SplitState

variable {π κ : Type} {engine : Engine} {config : SplitConfig} {p : Preprocessor π}
  {learner : Learner κ} {inst : Instance} {p₀ : π} {l₀ : κ}

/-- The accumulator satisfies the clauses that are settled. -/
structure Sound (inst : Instance) (w : World (SplitState π κ)) : Prop where
  total : ∀ pending total, w.1.splitter.progress = .active pending total → 0 < total
  formulas : ∀ (p : Nat) q, inst.preds[p]? = some q → q.definition = none →
    ∀ t ∈ w.1.candidates.fragments p, t.IsFormula
  model : ∃ J : Interpretation inst.preds, J.Conjoins w.1.candidates.reading ∧
    ∀ c ∈ inst.clauses, w.1.splitter.Settled c → J.Satisfies c

/-- What is relied on in the collaborators, about the parts of one run on an instance. -/
structure Trusted (engine : Engine) (config : SplitConfig) (p : Preprocessor π)
    (learner : Learner κ) (inst : Instance) (start : World (SplitState π κ)) : Prop where
  /-- A candidate consists of fragments, and satisfies the part together with what is known. -/
  learned : ∀ {w w₁ w₂ reduced candidate}, Reaches engine config p learner start w →
    Produces config p w (ofPart reduced) w₁ →
    Asks learner reduced w₁ (.ok (.candidate candidate)) w₂ →
    candidate.Fragments (w₁.1.given reduced).preds ∧
      Models (w₁.1.given reduced).preds (w₁.1.given reduced).clauses
        (w₁.1.candidates.joined candidate)
  /-- A part has the predicates of the instance and contains the clauses with a conclusion and the
  isolated clause. -/
  parts : ∀ {w w₁ part info}, Reaches engine config p learner start w →
    Produces config p w (.sub part) w₁ → w.1.splitter.peek = some info →
    part.preds = inst.preds ∧
      ∀ c ∈ inst.keptClauses info.clause, ∃ d ∈ part.clauses, d.SameContent c
  /-- What a part remembers is right. -/
  remember : PartsRemember engine config p learner start
  /-- A partial model consists of fragments, and satisfies the clauses with a conclusion and the
  isolated clause together with what is known. -/
  decided : ∀ {w w₁ model info}, Reaches engine config p learner start w →
    Produces config p w (.trivial (some model)) w₁ → w.1.splitter.peek = some info →
    model.Fragments inst.preds ∧
      Models inst.preds (inst.keptClauses info.clause) (w₁.1.candidates.joined model)

/-- The same conjunctions make the same models. -/
theorem conjoins_congr {preds : List Predicate} {J : Interpretation preds}
    {fs gs : Nat → List Term} (h : J.Conjoins fs)
    (hfg : ∀ {U : Universe} (M : Structure U) {p q}, preds[p]? = some q → q.definition = none →
      ((∀ t ∈ gs p, M.Sat t) ↔ ∀ t ∈ fs p, M.Sat t)) : J.Conjoins gs := by
  intro U M p q es hp hq hes
  rw [h M hp hq hes, hfg _ hp hq]

/-- Merging fragments that are a model, together with what is known, of some clauses: these are
satisfied, and the negative clauses that were satisfied before stay so. -/
theorem Sound.merge (hS : engine.Simplifies) (hn : DistinctNames inst.preds)
    (hd : ClosedDefinitions inst.preds)
    (havoid : ∀ c ∈ inst.clauses, c.conclusion = none → c.Avoids (IsUndefined inst.preds))
    {m : Accumulator} {clauses : List Clause} {model defs : Definitions}
    {J : Interpretation inst.preds}
    (hm : ∀ (p : Nat) q, inst.preds[p]? = some q → q.definition = none →
      ∀ t ∈ m.fragments p, t.IsFormula)
    (hJ : J.Conjoins m.reading)
    (hmodels : Models inst.preds clauses (m.joined model))
    (hdefs : ∀ (p : Nat) q, inst.preds[p]? = some q → q.definition = none →
      (∀ t ∈ defs.formulas p, t.IsFormula) ∧ ∀ {U : Universe} (M : Structure U),
        (∀ t ∈ defs.formulas p, M.Sat t) ↔ ∀ t ∈ model.formulas p, M.Sat t) :
    (∀ (p : Nat) q, inst.preds[p]? = some q → q.definition = none →
      ∀ t ∈ (m.absorb engine inst defs).fragments p, t.IsFormula) ∧
    ∃ K : Interpretation inst.preds, K.Conjoins (m.absorb engine inst defs).reading ∧
      (∀ c ∈ clauses, K.Satisfies c) ∧
      ∀ c ∈ inst.clauses, c.conclusion = none → J.Satisfies c → K.Satisfies c := by
  obtain ⟨K, hK, hsat⟩ := hmodels
  refine ⟨fun p q hp hq => (Accumulator.sat_absorb hS hp hq (hdefs p q hp hq).1 (hm p q hp hq)).1,
    K, ?_, hsat, ?_⟩
  · refine conjoins_congr hK fun M p q hp hq => ?_
    rw [Accumulator.reading,
      (Accumulator.sat_absorb hS hp hq (hdefs _ _ hp hq).1 (hm _ _ hp hq)).2 M,
      (hdefs _ _ hp hq).2 M, Accumulator.joined, List.forall_mem_append]
  · intro c hc hneg hJc
    -- More fragments make a smaller interpretation.
    have hle : K.Le J := by
      refine hK.le hJ fun M p q hp hq h t ht => h t ?_
      exact List.mem_append_left _ ht
    exact Interpretation.satisfies_of_le hn hd hle hneg (havoid c hc hneg) hJc

/-- A fragment that is entered as it is. -/
theorem sat_fragments {preds : List Predicate} {model : Definitions} (h : model.Fragments preds)
    (p : Nat) : (∀ t ∈ model.formulas p, t.IsFormula) ∧ ∀ {U : Universe} (M : Structure U),
      (∀ t ∈ model.formulas p, M.Sat t) ↔ ∀ t ∈ model.formulas p, M.Sat t :=
  ⟨fun _ ht => (h _ (Definitions.mem_formulas.1 ht)).1, fun _ => Iff.rfl⟩

/-- **What a round learns.** However a part is handled, what is absorbed means the same as fragments
that satisfy the clauses that the part stands for, together with what was known. -/
theorem Trusted.absorbs (hS : engine.Simplifies)
    (htrust : Trusted engine config p learner inst (startWorld inst config p₀ l₀))
    {w w₁ w' : World (SplitState π κ)} {r : Reduced}
    (hw : Reaches engine config p learner (startWorld inst config p₀ l₀) w)
    (hprod : Produces config p w r w₁)
    (hkeeps : (Splitter.create inst config p₀).Keeps w₁.1.splitter)
    (hhandled : Handled engine learner w₁ r none w') {clauses : List Clause}
    (hclauses : (r = .whole ∧ clauses = inst.clauses) ∨
      ∃ info, w.1.splitter.peek = some info ∧ clauses = inst.keptClauses info.clause) :
    ∃ model defs, Models inst.preds clauses (w₁.1.candidates.joined model) ∧
      (∀ (p : Nat) q, inst.preds[p]? = some q → q.definition = none →
        (∀ t ∈ Definitions.formulas defs p, t.IsFormula) ∧ ∀ {U : Universe} (M : Structure U),
          (∀ t ∈ Definitions.formulas defs p, M.Sat t) ↔
            ∀ t ∈ Definitions.formulas model p, M.Sat t) ∧
      w'.1.candidates = w₁.1.candidates.absorb engine inst defs := by
  cases hhandled with
  -- A decision is entered as it is.
  | @decided model _ _ _ hcand =>
    rcases hclauses with ⟨h, -⟩ | ⟨info, hpeek, rfl⟩
    · cases h
    · obtain ⟨hfrag, hmodels⟩ := htrust.decided hw hprod hpeek
      refine ⟨model, model, hmodels, fun p _ _ _ => sat_fragments hfrag p, ?_⟩
      rw [hcand]
      exact Accumulator.absorb_congr hkeeps.preds _ _
  | @learned _ reduced candidate defs w₂ _ hr hask hdefs _ _ hcand =>
    subst hr
    obtain ⟨hfrag, hmodels⟩ := htrust.learned hw hprod hask
    -- The part has the predicates of the instance, and the clauses that it stands for.
    have hstands : (w₁.1.given reduced).preds = inst.preds ∧
        ∀ c ∈ clauses, ∃ d ∈ (w₁.1.given reduced).clauses, d.SameContent c := by
      -- The part is the instance itself, or a sub-instance of it.
      cases reduced with
      | none =>
        refine ⟨hkeeps.preds, fun c hc => ⟨c, ?_, .refl c⟩⟩
        change c ∈ w₁.1.splitter.top.clauses
        rw [hkeeps.clauses]
        rcases hclauses with ⟨-, rfl⟩ | ⟨info, -, rfl⟩
        · exact hc
        · exact List.mem_of_mem_filter hc
      | some part =>
        rcases hclauses with ⟨h, -⟩ | ⟨info, hpeek, rfl⟩
        · cases h
        · exact htrust.parts hw hprod hpeek
    have hpreds : w₂.1.lastPart.preds = inst.preds := hask.preds_lastPart.trans hstands.1
    rw [hstands.1] at hmodels
    refine ⟨candidate, defs, hmodels.mono hstands.2, fun p q hp hq => ?_, ?_⟩
    · refine Instance.sat_collected hS ?_ hdefs (by rw [hpreds]; exact hp) hq
      rw [hpreds, ← hstands.1]
      exact hfrag
    · rw [hcand]
      exact Accumulator.absorb_congr hkeeps.preds _ _

/-- Before the first round nothing is settled. -/
theorem sound_start (inst : Instance) (config : SplitConfig) (p₀ : π) (l₀ : κ) :
    Sound inst (startWorld inst config p₀ l₀) := by
  have hstart := startWorld_fst inst config p₀ l₀
  have hprog : (startWorld inst config p₀ l₀).1.splitter.progress = Splitter.start inst config := by
    rw [hstart]
    rfl
  have hcand : (startWorld inst config p₀ l₀).1.candidates = Accumulator.empty := by
    rw [hstart]
    rfl
  constructor
  case total =>
    intro pending total h
    rw [h] at hprog
    rcases Splitter.start_cases inst config with ⟨hpos, hstart⟩ | hstart
    · rw [hstart] at hprog
      cases hprog
      exact hpos
    · rw [hstart] at hprog
      cases hprog
  -- No fragments yet: all predicates are true everywhere.
  case formulas =>
    intro p q _ _ t ht
    rw [hcand] at ht
    cases ht
  case model =>
    refine ⟨Interpretation.full inst.preds, ?_, ?_⟩
    · rw [hcand]
      exact Interpretation.full_conjoins
    -- Nothing is settled: all negative clauses are pending, and no part has been produced yet.
    · intro c hc hsettled
      rcases Splitter.start_cases inst config with ⟨-, hstart⟩ | hstart
      · rw [Splitter.Settled, hprog, hstart] at hsettled
        rcases hsettled with ⟨hneg, hnot⟩ | ⟨-, hlt⟩
        · exact absurd (Instance.mem_splitOrder.2 ⟨c, hc, hneg, rfl⟩) hnot
        · exact absurd hlt (Nat.lt_irrefl _)
      · rw [Splitter.Settled, hprog, hstart] at hsettled
        cases hsettled

/-- **One round.** The invariant is kept. -/
theorem Sound.round (hinfer : config.infer = true) (hS : engine.Simplifies)
    (hn : DistinctNames inst.preds) (hd : ClosedDefinitions inst.preds)
    (havoid : ∀ c ∈ inst.clauses, c.conclusion = none → c.Avoids (IsUndefined inst.preds))
    (htrust : Trusted engine config p learner inst (startWorld inst config p₀ l₀))
    {w w₁ w' : World (SplitState π κ)} {r : Reduced}
    (hw : Reaches engine config p learner (startWorld inst config p₀ l₀) w)
    (hsound : Sound inst w) (hprod : Produces config p w r w₁)
    (hhandle : (handle engine config (some learner) r).runFrom w₁ = (.ok none, w')) :
    Sound inst w' := by
  have hkeeps := hw.keeps hinfer htrust.remember
  obtain ⟨hsame, ⟨log, hadv⟩, hhandled⟩ :=
    round_ok hinfer hw.holdsTop hkeeps hprod fun part h => htrust.remember _ _ part hw (h ▸ hprod)
  have hhandled := hhandled none w' hhandle
  have hprog := hhandled.progress
  have hcand : w₁.1.candidates = w.1.candidates := by rw [hsame]
  obtain ⟨J, hJ, hJsat⟩ := hsound.model
  -- What the round learns, for the clauses that the part stands for.
  have hlearn : ∀ clauses, ((r = .whole ∧ clauses = inst.clauses) ∨
      ∃ info, w.1.splitter.peek = some info ∧ clauses = inst.keptClauses info.clause) →
      (∀ (p : Nat) q, inst.preds[p]? = some q → q.definition = none →
        ∀ t ∈ w'.1.candidates.fragments p, t.IsFormula) ∧
      ∃ K : Interpretation inst.preds, K.Conjoins w'.1.candidates.reading ∧
        (∀ c ∈ clauses, K.Satisfies c) ∧
        ∀ c ∈ inst.clauses, c.conclusion = none → J.Satisfies c → K.Satisfies c := by
    intro clauses hclauses
    obtain ⟨model, defs, hmodels, hdefs, hnew⟩ :=
      htrust.absorbs hS hw hprod (hkeeps.trans hadv.keeps) hhandled hclauses
    rw [hnew]
    rw [hcand] at hmodels ⊢
    exact Sound.merge hS hn hd havoid hsound.formulas hJ hmodels hdefs
  cases hadv with
  -- The part is the whole instance: everything is settled at once.
  | whole hbefore hafter =>
    obtain ⟨hform, K, hK, hsat, -⟩ := hlearn inst.clauses (.inl ⟨rfl, rfl⟩)
    dsimp only at hafter
    rw [hafter] at hprog
    refine ⟨fun pending total h => ?_, hform, K, hK, fun c hc _ => hsat c hc⟩
    rw [hprog] at h
    cases h
  | @isolated _ _ pending clause total v hbefore _ hafter =>
    obtain ⟨hform, K, hK, hsat, hneg⟩ := hlearn _ (.inr ⟨_, Splitter.peek_eq hbefore, rfl⟩)
    dsimp only at hbefore hafter
    rw [hafter] at hprog
    refine ⟨fun pending' total' h => ?_, hform, K, hK, fun c hc hsettled => ?_⟩
    · rw [hprog] at h
      cases h
      exact hsound.total _ _ hbefore
    · -- Settled now means satisfied anew, or negative and settled before.
      rcases hsettled.of_isolated hbefore hprog hc with hkept | ⟨hnone, hbefore⟩
      · exact hsat c hkept
      · exact hneg c hc hnone (hJsat c hc hbefore)

/-! ### Learners that guess -/

/-- A learner that guesses can be trusted if its candidates are fragments that satisfy the parts. -/
theorem trusted_guessing {f : List Clause → Definitions} (hg : Guessable inst f)
    (config : SplitConfig) (hinfer : config.infer = true) (p₀ : π)
    (hfrag : ∀ cs, (f cs).Fragments inst.preds)
    (hmodel : ∀ {w w₁ r clauses cs}, Reaches Engine.literal config
        (Preprocessor.standard Engine.literal π) (Learner.guessing f)
        (startWorld inst config p₀ ()) w →
      Parts Engine.literal inst w.1.splitter w₁ r clauses →
      List.Forall₂ Clause.SameContent clauses cs →
      Models inst.preds clauses (w.1.candidates.joined (f cs))) :
    Trusted Engine.literal config (Preprocessor.standard Engine.literal π) (Learner.guessing f) inst
      (startWorld inst config p₀ ()) := by
  constructor
  case learned =>
    intro w w₁ w₂ reduced candidate hw hprod hask
    cases hask.guessing
    obtain ⟨hpreds, hmodels⟩ := models_guessed hg hinfer hw hprod fun _ => hmodel hw
    rw [hpreds] at hmodels ⊢
    exact ⟨hfrag _, hmodels⟩
  case parts =>
    intro w w₁ part info hw hprod hpeek
    obtain ⟨htidy, -, clauses, hparts⟩ :=
      (hw.tidy hg.wellFormed hinfer).produces hg.wellFormed hprod
    have hsub : Reduced.sub part = ofPart (some part) := rfl
    obtain ⟨hpreds, hcontent⟩ := hparts.content htidy.keeps hsub
    refine ⟨hpreds, fun c hc => ?_⟩
    cases hparts with
    | isolated hbefore _ _ =>
      rw [Splitter.peek_eq hbefore] at hpeek
      cases hpeek
      obtain ⟨d, hd, hcd⟩ := (exists_of_forall₂ hcontent).1 c hc
      exact ⟨d, hd, hcd.symm⟩
  case remember => exact partsRemember_standard hg.wellFormed hinfer
  -- No part is decided, since every negative clause has an application.
  case decided =>
    intro w w₁ model info hw hprod _
    have htidy := hw.tidy hg.wellFormed hinfer
    obtain ⟨-, -, clauses, hparts⟩ := htidy.produces hg.wellFormed hprod
    exact absurd rfl (hparts.ne_trivial hg.asks htidy (some model))

/-! ### The model -/

/-- **Soundness of the split loop's model.** If the collaborators can be trusted with the parts of a
run, and no negative clause mentions an undefined predicate in a side condition or an argument, then
the accumulator that the run ends with satisfies all clauses of the instance. -/
theorem solve_sound (hS : engine.Simplifies) (hinfer : config.infer = true)
    (hn : DistinctNames inst.preds) (hsafe : inst.AllSafe)
    (havoid : ∀ c ∈ inst.clauses, c.conclusion = none → c.Avoids (IsUndefined inst.preds))
    (htrust : Trusted engine config p learner inst (startWorld inst config p₀ l₀))
    {m : Accumulator} {s' : SplitState π κ} {log : Log}
    (h : Horn.solve engine inst config p (some learner) p₀ l₀ = (.ok (.model m), s', log)) :
    Models inst.preds inst.clauses m.reading := by
  obtain ⟨answer, w, w', hw, hstop, hout⟩ := solve_ok hinfer htrust.remember h
  -- The invariant at the end of the run.
  have hsound : Sound inst w := hw.invariant (P := Sound inst) (sound_start inst config p₀ l₀)
    fun hw hsound hprod hhandle =>
      hsound.round hinfer hS hn hsafe.closed havoid htrust hw hprod hhandle
  cases hstop with
  | refuted => cases hout
  | finished hrem hsame =>
    cases hout
    rw [hsame]
    obtain ⟨J, hJ, hsat⟩ := hsound.model
    refine ⟨J, hJ, fun c hc => hsat c hc ?_⟩
    -- Nothing remains, so every clause is settled.
    unfold Splitter.Settled
    rcases Progress.eq_of_remaining hrem with ⟨total, hprog⟩ | hprog
    · rw [hprog]
      by_cases hneg : c.conclusion = none
      · exact .inl ⟨hneg, List.not_mem_nil⟩
      · exact .inr ⟨hneg, hsound.total _ _ hprog⟩
    · rw [hprog]

end SplitState

/-! ### A run on three clauses -/

/-- The predicate `P` of integers with the clauses `P(1)`, `P(0) → false` and `P(2) → false`. -/
def oneOnly : Instance where
  name := "oneOnly"
  preds := [⟨"P", [.int], [.int], [0], none⟩]
  clauses := [
    ⟨0, [], [], [], some (0, [.int 1]), false, true⟩,
    ⟨1, [], [], [⟨0, [[.int 0]]⟩], none, false, true⟩,
    ⟨2, [], [], [⟨0, [[.int 2]]⟩], none, false, true⟩]
  users := [[1, 2]]
  producers := [[0]]
  holders := 0
  expansions := []

/-- The fragment `P!0 = 1`. -/
def isOne : Term := .op .eq [.const ⟨"P!0", .int⟩, .int 1]

/-- Fragments that all say that the argument is one are a model of the three clauses. -/
theorem models_oneOnly {fragments : Nat → List Term} (hmem : isOne ∈ fragments 0)
    (hall : ∀ t ∈ fragments 0, t = isOne) :
    Models oneOnly.preds oneOnly.clauses fragments := by
  let J := Interpretation.ofRelations oneOnly.preds fun _ es => es = [⟨.int, (1 : ℤ)⟩]
  have happ : ∀ {U : Universe} {M : Structure U} (n : Int), M.Reads J →
      (M.Applies oneOnly.preds (0, [.int n]) ↔ n = 1) := by
    intro U M n hM
    rw [hM.applies_int_iff (p := 0) rfl rfl rfl, ← Element.int_inj]
    exact ⟨fun h => (List.cons.inj h).1, fun h => congrArg (fun e => [e]) h⟩
  -- First the reading of the fragments, then the clauses one by one.
  refine ⟨J, ?_, ?_⟩
  · intro U M p q es hp _ hes
    obtain ⟨rfl, rfl⟩ : p = 0 ∧ q = ⟨"P", [.int], [.int], [0], none⟩ := by
      cases p with
      | zero => exact ⟨rfl, (Option.some.inj hp).symm⟩
      | succ p => cases hp
    obtain ⟨e, rfl, he⟩ := fits_singleton.1 hes
    have hiff : (M.assign [(⟨"P!0", .int⟩, e)]).Sat isOne ↔ e = ⟨.int, (1 : ℤ)⟩ :=
      M.sat_eq_int he 1
    change [e] = _ ↔ ∀ t ∈ fragments 0, (M.assign [(⟨"P!0", .int⟩, e)]).Sat t
    rw [List.cons.injEq, and_iff_left rfl, ← hiff]
    exact ⟨fun hsat t ht => hall t ht ▸ hsat, fun hsat => hsat _ hmem⟩
  · simp only [oneOnly, List.forall_mem_cons]
    refine ⟨fun U M hM _ => ⟨_, rfl, (happ 1 hM).2 rfl⟩, fun U M hM hbody => ?_,
      fun U M hM hbody => ?_, List.forall_mem_nil _⟩
    · cases (happ 0 hM).1 (hbody.apps _ (List.mem_singleton_self _))
    · cases (happ 2 hM).1 (hbody.apps _ (List.mem_singleton_self _))

namespace SplitState

/-- Always guessing `P!0 = 1` is possible. -/
theorem guessable_oneOnly : Guessable oneOnly fun _ => [(0, isOne)] where
  wellFormed := by decide
  undefined := by decide
  asks := by decide
  candidates _ := List.forall_mem_singleton.2 ⟨⟨0, rfl, by decide⟩, by decide⟩

/-- In a run on the three clauses with that guess every part is solved. -/
theorem models_part_oneOnly {config : SplitConfig} (hinfer : config.infer = true)
    {w : World (SplitState Unit Unit)} {w₁ : Splitter Unit} {r : Reduced} {clauses : List Clause}
    (hw : Reaches Engine.literal config (Preprocessor.standard Engine.literal Unit)
      (Learner.guessing fun _ => [(0, isOne)]) (startWorld oneOnly config () ()) w)
    (hparts : Parts Engine.literal oneOnly w.1.splitter w₁ r clauses) :
    Models oneOnly.preds clauses (w.1.candidates.joined [(0, isOne)]) := by
  -- Nothing else has ever been learned.
  have hone : ∀ t ∈ w.1.candidates.fragments 0, t = isOne := by
    refine hw.guessed (P := fun _ m => ∀ t ∈ Accumulator.fragments m 0, t = isOne)
      guessable_oneOnly hinfer (fun t ht => by cases ht) fun {_ _ m _ _ _} hm _ _ t ht => ?_
    have habsorb : (m.absorb Engine.literal oneOnly [(0, isOne)]).fragments 0 =
        Accumulator.extend Engine.literal (m.fragments 0) isOne :=
      Accumulator.fragments_absorb_single (p := 0) rfl rfl m 0 isOne
    rw [habsorb] at ht
    exact (Accumulator.mem_extend ht).elim (hm t) id
  refine (models_oneOnly ?_ ?_).mono fun c hc => ⟨c, hparts.subset hc, .refl c⟩
  · exact List.mem_append_right _ (List.mem_singleton_self _)
  · intro t ht
    rcases List.mem_append.1 ht with ht | ht
    · exact hone t ht
    · exact List.mem_singleton.1 ht

/-- The run ends with a model, which is one. -/
theorem solve_oneOnly : ∃ m s' log,
    Horn.solve Engine.literal oneOnly SplitConfig.default
      (Preprocessor.standard Engine.literal Unit)
      (some (Learner.guessing fun _ => [(0, isOne)])) () () = (.ok (.model m), s', log) ∧
    Models oneOnly.preds oneOnly.clauses m.reading := by
  obtain ⟨w, s', log, -, -, hrun⟩ := solve_guessing guessable_oneOnly SplitConfig.default rfl ()
  have htrust := trusted_guessing guessable_oneOnly SplitConfig.default rfl ()
    (fun _ => List.forall_mem_singleton.2 ⟨by decide, by decide⟩)
    fun hw hparts _ => models_part_oneOnly rfl hw hparts
  exact ⟨_, s', log, hrun, solve_sound Engine.simplifies_literal rfl (by decide) (by decide)
    (by decide) htrust hrun⟩

end SplitState

/-! ### An unsound run -/

/-- The predicate `P` of integers with the clauses `P(0) → false` and `¬P(0) ∧ P(5) → false`. -/
def negated : Instance where
  name := "negated"
  preds := [⟨"P", [.int], [.int], [0], none⟩]
  clauses := [
    ⟨0, [], [], [⟨0, [[.int 0]]⟩], none, false, true⟩,
    ⟨1, [], [.neg (.fn ⟨"P", [.int], .bool⟩ [.int 0])], [⟨0, [[.int 5]]⟩], none, false, true⟩]
  users := [[0, 1]]
  producers := [[]]
  holders := 0
  expansions := []

/-- The fragment `P!0 ≠ 0`. -/
def isNotZero : Term := .neg (.op .eq [.const ⟨"P!0", .int⟩, .int 0])

/-- True where a side condition is to be met, and `P!0 ≠ 0` otherwise. -/
def guessNegated (cs : List Clause) : Definitions :=
  if cs.any fun c => !c.terms.isEmpty then [(0, .verum)] else [(0, isNotZero)]

/-- An interpretation of `P` by the fragments that say that the argument is not zero. -/
theorem conjoins_isNotZero {fragments : Nat → List Term} (h : fragments 0 = [isNotZero]) :
    (Interpretation.ofRelations negated.preds fun _ es => es ≠ [⟨.int, (0 : ℤ)⟩]).Conjoins
      fragments := by
  intro U M p q es hp _ hes
  obtain ⟨rfl, rfl⟩ : p = 0 ∧ q = ⟨"P", [.int], [.int], [0], none⟩ := by
    cases p with
    | zero => exact ⟨rfl, (Option.some.inj hp).symm⟩
    | succ p => cases hp
  obtain ⟨e, rfl, he⟩ := fits_singleton.1 hes
  have hiff : (M.assign [(⟨"P!0", .int⟩, e)]).Sat isNotZero ↔ e ≠ ⟨.int, (0 : ℤ)⟩ := by
    rw [isNotZero, Structure.sat_neg, Structure.sat_eq_int M he]
  change [e] ≠ _ ↔ ∀ t ∈ fragments 0, (M.assign [(⟨"P!0", .int⟩, e)]).Sat t
  rw [h, List.forall_mem_singleton, hiff, ne_eq, ne_eq, List.cons.injEq, and_iff_left rfl]

namespace SplitState

/-- How far a run has come: the clause with the side condition comes first, and what is learned from
it is not kept. -/
inductive NegatedRun : Progress → Accumulator → Prop
  | both {m : Accumulator} : m.fragments 0 = [] → NegatedRun (.active [0, 1] 2) m
  | one {m : Accumulator} : m.fragments 0 = [] → NegatedRun (.active [0] 2) m
  | none {m : Accumulator} : m.fragments 0 = [isNotZero] → NegatedRun (.active [] 2) m

theorem guessable_negated : Guessable negated guessNegated where
  wellFormed := by decide
  undefined := by decide
  asks := by decide
  candidates cs := by
    unfold guessNegated
    split <;> exact List.forall_mem_singleton.2 ⟨⟨0, rfl, by decide⟩, by decide⟩

/-- What is guessed for a part with the content of one clause. -/
theorem guessNegated_eq {c : Clause} {cs : List Clause}
    (h : List.Forall₂ Clause.SameContent [c] cs) :
    guessNegated cs = if c.terms.isEmpty then [(0, isNotZero)] else [(0, .verum)] := by
  obtain ⟨d, ds, hcd, hds, rfl⟩ := List.forall₂_cons_left_iff.1 h
  rw [List.forall₂_nil_left_iff.1 hds, guessNegated, List.any_cons, List.any_nil, Bool.or_false,
    ← hcd.terms]
  cases c.terms <;> rfl

/-- The clauses come in this order. -/
theorem NegatedRun.next {pending : List Nat} {clause total : Nat} {m : Accumulator}
    (h : NegatedRun (.active (pending ++ [clause]) total) m) :
    m.fragments 0 = [] ∧ total = 2 ∧ (pending = [0] ∧ clause = 1 ∨ pending = [] ∧ clause = 0) := by
  generalize hp : pending ++ [clause] = l at h
  cases h with
  | both hm =>
    have hp : pending ++ [clause] = [0] ++ [1] := hp
    exact ⟨hm, rfl, .inl (List.append_singleton_inj.1 hp)⟩
  | one hm =>
    have hp : pending ++ [clause] = [] ++ [0] := hp
    exact ⟨hm, rfl, .inr (List.append_singleton_inj.1 hp)⟩
  | none hm => simp at hp

/-- The truth of the side condition. -/
theorem sat_negated {U : Universe} {M : Structure U} {J : Interpretation negated.preds}
    (hM : M.Reads J) (n : Int) :
    M.Sat (.fn ⟨"P", [.int], .bool⟩ [.int n]) ↔ J.rel M 0 [⟨.int, n⟩] := by
  rw [← hM.applies_int_iff (p := 0) rfl rfl rfl]
  exact (M.applies_iff_sat negated.preds (p := 0) rfl rfl).symm

/-- A part of a run on the two clauses. -/
theorem NegatedRun.part {sp sp' : Splitter Unit} {m : Accumulator} {r : Reduced}
    {clauses cs : List Clause} (h : NegatedRun sp.progress m)
    (hparts : Parts Engine.literal negated sp sp' r clauses)
    (hcs : List.Forall₂ Clause.SameContent clauses cs) :
    NegatedRun sp'.progress (m.absorb Engine.literal negated (guessNegated cs)) ∧
      Models negated.preds clauses (m.joined (guessNegated cs)) := by
  have habsorb : ∀ t, (m.absorb Engine.literal negated [(0, t)]).fragments 0 =
      Accumulator.extend Engine.literal (m.fragments 0) t := fun t =>
    Accumulator.fragments_absorb_single (p := 0) rfl rfl m 0 t
  cases hparts with
  -- The instance is split, so there is no part that is the whole of it.
  | whole hbefore _ =>
    rw [hbefore] at h
    cases h
  -- The part is one clause, and the progress so far tells which one.
  | @isolated _ pending clause total hbefore hafter _ =>
    rw [hbefore] at h
    rw [hafter]
    obtain ⟨hm, rfl, ⟨rfl, rfl⟩ | ⟨rfl, rfl⟩⟩ := h.next
    · -- The clause with the side condition: a fragment that is true is not kept.
      have hguess : guessNegated cs = [(0, .verum)] := guessNegated_eq hcs
      rw [hguess]
      refine ⟨.one ?_, Interpretation.full _, ?_, ?_⟩
      · rw [habsorb, hm]
        rfl
      · intro U M p q es hp _ _
        refine iff_of_true trivial fun t ht => ?_
        obtain rfl : p = 0 := Nat.lt_one_iff.1 (List.getElem?_eq_some_iff.1 hp).1
        rw [Accumulator.joined, Nat.cast_zero, hm] at ht
        obtain rfl := List.mem_singleton.1 ht
        exact Structure.sat_of_isVerum _ rfl
      · -- The side condition is not met.
        refine List.forall_mem_singleton.2 fun U M hM hbody => ?_
        have hneg := hbody.terms _ (List.mem_singleton_self _)
        rw [Structure.sat_neg, sat_negated hM] at hneg
        exact absurd trivial hneg
    · -- The other clause: its fragment is the first one that is kept.
      have hguess : guessNegated cs = [(0, isNotZero)] := guessNegated_eq hcs
      rw [hguess]
      refine ⟨.none ?_, _, conjoins_isNotZero ?_, ?_⟩
      · rw [habsorb, hm]
        rfl
      · rw [Accumulator.joined, Nat.cast_zero, hm]
        rfl
      · refine List.forall_mem_singleton.2 fun U M hM hbody => ?_
        have happ := hbody.apps _ (List.mem_singleton_self _)
        rw [hM.applies_int_iff (p := 0) rfl rfl rfl] at happ
        exact absurd rfl happ

/-- All worlds that are reached are such. -/
theorem Reaches.negatedRun {w : World (SplitState Unit Unit)}
    (hw : Reaches Engine.literal SplitConfig.default (Preprocessor.standard Engine.literal Unit)
      (Learner.guessing guessNegated) (startWorld negated SplitConfig.default () ()) w) :
    NegatedRun w.1.splitter.progress w.1.candidates := by
  have hstart : Splitter.start negated .default = .active [0, 1] 2 :=
    Splitter.start_of_pairwise rfl (by decide) (by decide)
  refine hw.guessed guessable_negated rfl ?_ fun h hparts hcs => (h.part hparts hcs).1
  rw [hstart]
  exact .both rfl

/-- The candidates can be trusted. -/
theorem trusted_negated : Trusted Engine.literal SplitConfig.default
    (Preprocessor.standard Engine.literal Unit) (Learner.guessing guessNegated) negated
    (startWorld negated SplitConfig.default () ()) := by
  refine trusted_guessing guessable_negated _ rfl () (fun cs => ?_) fun hw hparts hcs => ?_
  · unfold guessNegated
    split <;> exact List.forall_mem_singleton.2 ⟨by decide, by decide⟩
  · exact (NegatedRun.part (hw.negatedRun) hparts hcs).2

/-- **The run is unsound.** All assumptions about the collaborators hold, and the loop ends with a
model that does not satisfy the clause with the side condition. -/
theorem solve_unsound :
    Engine.literal.Simplifies ∧ negated.WellFormed ∧ negated.AllSafe ∧
    Trusted Engine.literal SplitConfig.default (Preprocessor.standard Engine.literal Unit)
      (Learner.guessing guessNegated) negated (startWorld negated SplitConfig.default () ()) ∧
    ∃ m s' log, Horn.solve Engine.literal negated SplitConfig.default
        (Preprocessor.standard Engine.literal Unit) (some (Learner.guessing guessNegated)) () () =
          (.ok (.model m), s', log) ∧
      ¬Models negated.preds negated.clauses m.reading := by
  obtain ⟨w, s', log, hw, hrem, hrun⟩ :=
    solve_guessing guessable_negated SplitConfig.default rfl ()
  refine ⟨Engine.simplifies_literal, by decide, by decide, trusted_negated, _, s', log, hrun, ?_⟩
  -- What is left at the end is the fragment of the other clause.
  have hend : w.1.candidates.fragments 0 = [isNotZero] := by
    have hstate := hw.negatedRun
    generalize hprog : w.1.splitter.progress = prog at hstate hrem
    cases hstate with
    | both _ => cases hrem
    | one _ => cases hrem
    | none hm => exact hm
  rintro ⟨J, hJ, hsat⟩
  -- So the only possible interpretation is to be true of all numbers but zero.
  have hrel : ∀ {U : Universe} (M : Structure U) (n : Int), J.rel M 0 [⟨.int, n⟩] ↔ n ≠ 0 := by
    intro U M n
    have hfit : Fits [.int] [(⟨.int, n⟩ : Element U)] := rfl
    have hone : [(⟨.int, n⟩ : Element U)] = [⟨.int, (0 : ℤ)⟩] ↔ n = 0 :=
      List.singleton_inj.trans Element.int_inj
    rw [hJ M (p := 0) rfl rfl hfit, ← conjoins_isNotZero hend M (p := 0) rfl rfl hfit]
    exact not_congr hone
  have hsafe : negated.AllSafe := by decide
  obtain ⟨N, -, hN⟩ := hsafe.exists_reads (by decide) (default : Structure default) J
  -- It makes the body of the clause with the side condition true.
  have hbody : N.Body negated.preds negated.clauses[1] := by
    constructor
    · refine List.forall_mem_singleton.2 ?_
      rw [Structure.sat_neg, sat_negated hN, hrel]
      exact not_not_intro rfl
    · refine List.forall_mem_singleton.2 ?_
      rw [hN.applies_int_iff (p := 0) rfl rfl rfl, hrel]
      decide
  obtain ⟨a, ha, -⟩ := hsat _ (List.getElem_mem _) _ N hN hbody
  cases ha

end SplitState
end Horn
