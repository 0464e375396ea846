import Horn.Learner.Basic
import Horn.Proofs.Act
import Horn.Proofs.Learner.Soundness

/-!
# Unsatisfiable parts

A solver that says that the error can be derived is right if the error is true in every model of the
rules over some structure (`RuleSystem.Derivable`, `RuleSolver.Right`). Rules that have a solution
have a model without the error (`RuleSystem.not_derivable_of_solves`).

An interpretation that satisfies the clauses is a solution of the rules, whatever is known, since
that only makes the rules weaker. There is one condition: if the error is an undefined predicate
itself, it has to be false (`RuleSystem.solves_of_satisfies`). Where nothing is known and the error
is kept apart, the solutions are exactly these interpretations
(`RuleSystem.solves_iff_of_nothing_known`). So a learner whose
solver is right finds no part unsatisfiable that has one (`Learner.solve_right`).

Names are not checked, and a predicate may have the name of the error. A fact of that predicate is
taken for a contradiction (`Learner.solve_ownError`).
-/

namespace Horn

variable {U : Universe}

/-! ### Derivability -/

namespace RuleSystem

/-- The symbols that the rules are about. -/
def IsRelation (sys : RuleSystem) (f : Symbol) : Prop := f ∈ sys.error :: sys.relations

/-- All rules are true, for all values of the constants. -/
def ModelsRules (sys : RuleSystem) (R : Structure U) : Prop :=
  ∀ r ∈ sys.rules, ∀ N : Structure U,
    Structure.Agree (fun f => f.domain ≠ [] ∨ sys.IsRelation f) N R →
      (∀ t ∈ r.body, N.Sat t) → N.Sat r.head

/-- The error can be derived: there are functions such that all relations that are a model of the
rules contain the error. -/
def Derivable (sys : RuleSystem) : Prop :=
  ∃ (U : Universe) (M : Structure U), ∀ R : Structure U,
    Structure.Agree (fun f => f.domain ≠ [] ∧ ¬sys.IsRelation f) R M →
      sys.ModelsRules R → R.Sat (.fn sys.error [])

end RuleSystem

/-- What the solver finds derivable is. -/
def RuleSolver.Right (solver : RuleSolver) : Prop :=
  ∀ sys, solver sys = .derivable → sys.Derivable

namespace RuleSystem

variable {callable : Callable} {inst : Instance} {background : Accumulator}

/-- The relations of the rules are the undefined predicates and the error. -/
theorem isRelation_iff {sys : RuleSystem} (hsys : ofInstance callable inst background = .ok sys)
    {f : Symbol} : sys.IsRelation f ↔ f = errorRelation ∨ IsUndefined inst.preds f := by
  obtain ⟨hrelations, herror, -⟩ := ofInstance_ok hsys
  rw [IsRelation, herror, hrelations, List.mem_cons, List.mem_map]
  refine or_congr_right (exists_congr fun q => ?_)
  rw [List.mem_filter, Option.isNone_iff_eq_none, and_assoc]

/-- The structure in which the error is false and the undefined predicates are as an interpretation
says. -/
noncomputable def modelOf (M : Structure U) (J : Interpretation inst.preds) : Structure U :=
  (M.without errorRelation).obeying J

/-- Only relations are changed. -/
theorem agree_modelOf (M : Structure U) (J : Interpretation inst.preds) :
    Structure.Agree (fun f => f ≠ errorRelation ∧ ¬IsUndefined inst.preds f) (modelOf M J) M :=
  ((Structure.agree_obeying _ J).mono fun _ hf => hf.2).trans
    ((Structure.agree_without M errorRelation).mono fun _ hf => hf.1)

theorem follows_modelOf (hn : DistinctNames inst.preds) (M : Structure U)
    (J : Interpretation inst.preds) : (modelOf M J).Follows J := by
  intro p q es hq hd hes
  unfold modelOf
  rw [Structure.rel_obeying hn _ J hq hd, ← J.congr _ _ (Structure.sameFunctions_obeying _ J)]
  simp [hes]

/-- The error is false, also if it is a predicate that the interpretation makes false. -/
theorem not_sat_modelOf (hn : DistinctNames inst.preds) (M : Structure U)
    {J : Interpretation inst.preds} (hJ : J.Falsifies errorRelation) :
    ¬(modelOf M J).Sat errorHead := by
  -- The error may be the name of a predicate, which is then read by the interpretation.
  by_cases hu : IsUndefined inst.preds errorRelation
  · exact hJ.not_sat (follows_modelOf hn M J) hu
  -- Otherwise it is a symbol of its own, which the model makes false.
  · intro hsat
    refine not_sat_without M ((Structure.sat_congr ?_).1 hsat)
    refine (Structure.agree_obeying (M.without errorRelation) J).mono fun f hf => ?_
    obtain rfl : f = errorRelation := List.mem_singleton.1 hf
    exact hu

/-- **A solution refutes a derivation.** If rules have a solution, the error cannot be derived. -/
theorem not_derivable_of_solves (hn : DistinctNames inst.preds) {sys : RuleSystem}
    (hsys : ofInstance callable inst background = .ok sys) {J : Interpretation inst.preds}
    (hJ : J.Solves sys) : ¬sys.Derivable := by
  rintro ⟨U, M, hall⟩
  obtain ⟨-, herror, -⟩ := ofInstance_ok hsys
  -- The solution, with the error false, is a model of the rules over the given functions.
  have hagree : Structure.Agree (fun f => f.domain ≠ [] ∧ ¬sys.IsRelation f) (modelOf M J) M :=
    (agree_modelOf M J).mono fun f hf => not_or.1 (mt (isRelation_iff hsys).2 hf.2)
  have hmodels : sys.ModelsRules (modelOf M J) := by
    intro r hr N hN hbody
    have hfollows : N.Follows J := by
      intro p q es hq hd hes
      have hrelation : sys.IsRelation q.symbol :=
        (isRelation_iff hsys).2 (.inr ⟨q, List.mem_of_getElem? hq, hd, rfl⟩)
      have hfun : (modelOf M J).SameFunctions inst.preds N :=
        hN.symm.mono fun f hf => .inl hf.1
      have hrel : N.Rel q es ↔ (modelOf M J).Rel q es :=
        iff_of_eq (congrFun (hN.symbol _ (.inr hrelation)) es)
      rw [hrel, ← J.congr _ N hfun]
      exact follows_modelOf hn M J hq hd hes
    -- The error is a relation, so it is false here, too.
    have hfalse : ¬N.Sat (.fn sys.error []) := by
      rw [Structure.sat_congr (N := modelOf M J), herror]
      · exact not_sat_modelOf hn M (herror ▸ hJ.error)
      · refine hN.mono fun f hf => .inr ?_
        obtain rfl : f = sys.error := List.mem_singleton.1 hf
        exact List.mem_cons_self
    exact hJ.rules r hr N hfollows (fun hsat => absurd hsat hfalse) hbody
  have hderived := hall _ hagree hmodels
  rw [herror] at hderived
  exact not_sat_modelOf hn M (herror ▸ hJ.error) hderived

/-! ### Models are solutions -/

/-- **Models are solutions.** An interpretation that satisfies all clauses and makes the error false
solves the rules, whatever is known. -/
theorem solves_of_satisfies (h : inst.Expressible) {sys : RuleSystem}
    (hsys : ofInstance callable inst background = .ok sys) {J : Interpretation inst.preds}
    (hJ : ∀ c ∈ inst.clauses, J.Satisfies c) (herror : J.Falsifies errorRelation) :
    J.Solves sys :=
  solves_of_satClause h hsys herror fun c hc _ _ N hN _ => hJ c hc _ N hN.reads

/-- **Without knowledge rules are exact.** Their solutions are the interpretations that satisfy all
clauses and make the error false, as long as that is kept apart. -/
theorem solves_iff_of_nothing_known (h : inst.Expressible) (hapart : inst.ErrorApart)
    {sys : RuleSystem} (hsys : ofInstance callable inst .empty = .ok sys)
    {J : Interpretation inst.preds} :
    J.Solves sys ↔ J.Falsifies errorRelation ∧ ∀ c ∈ inst.clauses, J.Satisfies c := by
  constructor
  · intro hJ
    have hfalse : J.Falsifies errorRelation := (ofInstance_ok hsys).2.1 ▸ hJ.error
    refine ⟨hfalse, fun c hc => hapart.satisfies hc fun U M hM herror => ?_⟩
    obtain ⟨K, hK, hKfalse⟩ := exists_completes_excluding hfalse hM herror
    refine satClause_of_solves h hsys hJ hc hK hKfalse fun a _ known hknown => ?_
    cases hknown
    exact List.forall_mem_nil _
  · rintro ⟨herror, hJ⟩
    exact solves_of_satisfies h hsys hJ herror

end RuleSystem

/-! ### The learner -/

namespace Learner

variable {callable : Callable} {inst : Instance} {background : Accumulator} {solver : RuleSolver}
  {reason : String}

/-- A part is only said to be unsatisfiable if the solver has derived the error. -/
theorem derivable_of_answer (h : answer callable solver inst background = .ok (.unsat reason)) :
    ∃ sys, RuleSystem.ofInstance callable inst background = .ok sys ∧
      solver sys = .derivable := by
  obtain ⟨sys, hsys, h⟩ := bind_eq_ok.1 h
  refine ⟨sys, hsys, ?_⟩
  cases hverdict : solver sys with
  | derivable => rfl
  | solved _ =>
    rw [hverdict] at h
    cases h
  | unknown =>
    rw [hverdict] at h
    cases h
  | refused =>
    rw [hverdict] at h
    cases h

/-- The learner says what the answer to the part is. -/
theorem answer_of_solve {κ : Type} {v : Visitor κ}
    (h : (((ofSolver κ solver callable).solve inst background).exec v).1 = .ok (.unsat reason)) :
    answer callable solver inst background = .ok (.unsat reason) := by
  rw [Act.exec_eq] at h
  unfold ofSolver at h
  dsimp only at h
  rw [Act.runFrom_bind, Act.runFrom_ofExcept] at h
  cases hanswer : answer callable solver inst background with
  | error e =>
    rw [hanswer] at h
    cases h
  | ok verdict =>
    rw [hanswer] at h
    cases verdict with
    | unsat reason' =>
      cases h
      rfl
    | candidate model =>
      dsimp only at h
      rw [Act.runFrom_bind] at h
      -- Only records are written before the candidate is returned.
      split at h
      · cases h
      · cases h

/-- **No spurious contradictions.** Let an interpretation satisfy all clauses of a part, and let it
make the error false in case that is a predicate. Then, whatever is known, it solves the rules, and
a learner whose solver is right does not say that the part is unsatisfiable. There are rules, if
what is known can be stated at all applications and these can be built anew. -/
theorem solve_right (h : inst.Expressible) {J : Interpretation inst.preds}
    (hJ : ∀ c ∈ inst.clauses, J.Satisfies c) (herror : J.Falsifies RuleSystem.errorRelation)
    (background : Accumulator) (callable : Callable) :
    (callable.Reapplies → RuleSystem.Exact inst background →
        ∃ sys, RuleSystem.ofInstance callable inst background = .ok sys) ∧
      (∀ {sys}, RuleSystem.ofInstance callable inst background = .ok sys → J.Solves sys) ∧
      ∀ {κ : Type} {solver : RuleSolver}, solver.Right → ∀ (v : Visitor κ) (reason : String),
        (((ofSolver κ solver callable).solve inst background).exec v).1 ≠ .ok (.unsat reason) := by
  have hsolves : ∀ {sys}, RuleSystem.ofInstance callable inst background = .ok sys →
      J.Solves sys := fun hsys => RuleSystem.solves_of_satisfies h hsys hJ herror
  refine ⟨fun hcall => RuleSystem.exists_ofInstance hcall h, hsolves,
    fun hsolver v reason hunsat => ?_⟩
  obtain ⟨sys, hsys, hderivable⟩ := derivable_of_answer (answer_of_solve hunsat)
  exact RuleSystem.not_derivable_of_solves h.wellFormed.names hsys (hsolves hsys)
    (hsolver sys hderivable)

/-! ### Two verdicts -/

/-- The solver that looks for a fact of the error. Where no rule concludes the error, it takes all
relations to be true. -/
def ofFacts : RuleSolver := fun sys =>
  if sys.rules.any fun r => r.body.all Term.isVerum && r.head == .fn sys.error [] then .derivable
  else if sys.rules.any fun r => r.head == .fn sys.error [] then .unknown
  else .solved fun _ _ => .verum

/-- A fact of the error is a derivation of it. -/
theorem right_ofFacts : ofFacts.Right := by
  intro sys h
  unfold ofFacts at h
  split at h
  · next hfact =>
    obtain ⟨r, hr, hr'⟩ := List.any_eq_true.1 hfact
    rw [Bool.and_eq_true, List.all_eq_true, beq_iff_eq] at hr'
    refine ⟨default, default, fun R _ hmodels => ?_⟩
    rw [← hr'.2]
    exact hmodels r hr R (Structure.Agree.refl _ R) fun t ht => R.sat_of_isVerum (hr'.1 t ht)
  · split at h <;> cases h

/-- The predicates `D`, which is defined by `D!0 = 1`, and `P`, with the clause `D(x) → P(x)`. -/
def oneInside : Instance :=
  { RuleSystem.onlyOne with clauses := [RuleSystem.onlyOne.clauses[0]] }

/-- The part has a model, and is not said to be unsatisfiable. -/
theorem solve_right_oneInside :
    ∃ sys, RuleSystem.ofInstance .any oneInside RuleSystem.notZero = .ok sys ∧
      (Interpretation.full oneInside.preds).Solves sys ∧
      ∀ reason, (((ofSolver Unit ofFacts).solve oneInside RuleSystem.notZero).exec default).1 ≠
        .ok (.unsat reason) := by
  have hexpressible : oneInside.Expressible :=
    ⟨by decide, by decide, by decide, by decide, by decide⟩
  have hmodel : ∀ c ∈ oneInside.clauses, (Interpretation.full oneInside.preds).Satisfies c := by
    intro c hc U M hM _
    obtain rfl := List.mem_singleton.1 hc
    exact ⟨_, rfl, (RuleSystem.applies_onlyOne_undefined hM rfl rfl).2 trivial⟩
  have herror : (Interpretation.full oneInside.preds).Falsifies RuleSystem.errorRelation :=
    Interpretation.falsifies_of_forall_ne _ (by decide)
  obtain ⟨hexists, hsolves, hright⟩ :=
    solve_right hexpressible hmodel herror RuleSystem.notZero .any
  obtain ⟨sys, hsys⟩ := hexists Callable.reapplies_any (by decide)
  exact ⟨sys, hsys, hsolves hsys, fun reason => hright right_ofFacts default reason⟩

/-- A predicate with the name of the error, and a fact of it. -/
def ownError : Instance where
  name := "ownError"
  preds := [⟨"__chcsplit_error", [], [], [], none⟩]
  clauses := [⟨0, [], [], [], some (0, []), false, true⟩]
  users := [[]]
  producers := [[0]]
  holders := 0
  expansions := []

/-- The part has a model, but its rules have no solution, and the part is said to be
unsatisfiable. -/
theorem solve_ownError :
    ownError.Expressible ∧ Satisfiable ownError.preds ownError.clauses ∧
      (∃ sys, RuleSystem.ofInstance .any ownError .empty = .ok sys ∧
        ∀ J : Interpretation ownError.preds, ¬J.Solves sys) ∧
      ofFacts.Right ∧
      ((ofSolver Unit ofFacts).solve ownError .empty).exec default =
        (.ok (.unsat "by learner"), default, []) := by
  have hexpressible : ownError.Expressible :=
    ⟨by decide, by decide, by decide, by decide, by decide⟩
  obtain ⟨sys, hsys⟩ : ∃ sys, RuleSystem.ofInstance .any ownError .empty = .ok sys := ⟨_, rfl⟩
  refine ⟨hexpressible, ⟨.full _, ?_⟩, ⟨sys, hsys, fun J hJ => ?_⟩, right_ofFacts, by rfl⟩
  · intro c hc U M hM _
    obtain rfl := List.mem_singleton.1 hc
    have hargs : Term.castAll? [] [] = some [] := rfl
    exact ⟨_, rfl, (hM.applies_iff (p := 0) rfl rfl hargs rfl).2 trivial⟩
  · -- A solution would satisfy the fact and make its conclusion false.
    obtain ⟨herror, hsat⟩ :=
      (RuleSystem.solves_iff_of_nothing_known hexpressible (by decide) hsys).1 hJ
    obtain ⟨N, -, hN⟩ :=
      hexpressible.safe.exists_reads hexpressible.wellFormed.names (default : Structure default) J
    obtain ⟨a, ha, happ⟩ := hsat _ (List.mem_singleton_self _) _ N hN
      ⟨List.forall_mem_nil _, List.forall_mem_nil _⟩
    cases ha
    have hargs : Term.castAll? [] [] = some [] := rfl
    exact @herror _ N 0 _ [] rfl rfl rfl rfl
      ((hN.applies_iff (p := 0) rfl rfl hargs rfl).1 happ)

end Learner
end Horn
