import Horn.Learner.Rules
import Horn.Proofs.Instance.Meaning
import Horn.Proofs.Instance.WellFormed
import Horn.Proofs.Semantics.Engine

/-!
# What rules state

A rule is about the undefined predicates only, and about the error. An interpretation solves a rule
system if all rules are true in all structures in which the undefined predicates are as it says
while the error is false (`Interpretation.Solves`).

Rules and clauses are compared in pairs of structures: a structure that follows an interpretation,
whatever its defined predicates are, and a completion of it, in which these are as their definitions
say (`Structure.Completes`). In such a pair the expansion of an application is as true as the
application (`Instance.Expressible.exists_condition`). Hence a rule is true exactly if, provided
that what is known holds, the clause is true in the completion, or the rule concludes the error and
that is true (`RuleSystem.satRule_iff`). For a whole system these are
`RuleSystem.solves_of_satClause` and `RuleSystem.satClause_of_solves`; that an instance has one is
`RuleSystem.exists_ofInstance`.
-/

namespace Horn

variable {U : Universe} {preds : List Predicate}

/-! ### Solutions -/

namespace Structure

/-- The undefined predicates are as an interpretation says. Nothing is said of the defined ones. -/
def Follows (M : Structure U) (J : Interpretation preds) : Prop :=
  ∀ {p q es}, preds[p]? = some q → q.definition = none → Fits q.sorts es →
    (M.Rel q es ↔ J.rel M p es)

/-- A rule is true: if its conditions hold, its head does. -/
def SatRule (M : Structure U) (r : Rule) : Prop := (∀ t ∈ r.body, M.Sat t) → M.Sat r.head

/-- The error is false, unless a variable has its name. What has the name is the variable then. -/
def Excludes (M : Structure U) (error : Symbol) (vars : List Constant) : Prop :=
  M.Sat (.fn error []) → ∃ x ∈ vars, x.symbol = error

end Structure

namespace Interpretation

/-- No undefined predicate with this symbol holds of anything. -/
def Falsifies (J : Interpretation preds) (f : Symbol) : Prop :=
  ∀ {U : Universe} (M : Structure U) {p q es}, preds[p]? = some q → q.definition = none →
    q.symbol = f → Fits q.sorts es → ¬J.rel M p es

/-- Without a predicate with this symbol there is nothing to be false. -/
theorem falsifies_of_forall_ne (J : Interpretation preds) {f : Symbol}
    (h : ∀ q ∈ preds, q.symbol ≠ f) : J.Falsifies f :=
  fun _ _ q _ hq _ hsym => absurd hsym (h q (List.mem_of_getElem? hq))

/-- An interpretation solves a rule system if all rules are true while the error is false. Since
structures differ in the values of the constants, all constants of a rule are universally
quantified, but for the error: where it stands in a body, it is the relation that is false. -/
structure Solves (J : Interpretation preds) (sys : RuleSystem) : Prop where
  error : J.Falsifies sys.error
  rules : ∀ r ∈ sys.rules, ∀ {U : Universe} (M : Structure U), M.Follows J →
    M.Excludes sys.error r.vars → M.SatRule r

end Interpretation

/-! ### Completions -/

namespace Structure

variable {M N : Structure U} {J : Interpretation preds}

/-- The structure `N` is `M` with its predicates changed to read the interpretation that `M`
follows. -/
structure Completes (N M : Structure U) (J : Interpretation preds) : Prop where
  follows : M.Follows J
  reads : N.Reads J
  agree : Agree (fun f => ∀ q ∈ preds, q.symbol ≠ f) N M

/-- What reads an interpretation is complete. -/
theorem Reads.completes (h : M.Reads J) : M.Completes M J :=
  ⟨h.undefined, h, Agree.refl _ M⟩

namespace Completes

variable (h : N.Completes M J)

include h

/-- Terms without predicates keep their value. -/
theorem eval_eq {t : Term} (ht : ∀ q ∈ preds, q.symbol ∉ t.symbols) :
    M.eval [] t = N.eval [] t := by
  refine (eval_congr t [] (h.agree.mono fun f hf q hq hqf => ?_)).symm
  exact ht q hq (hqf ▸ hf)

theorem sat_iff {t : Term} (ht : ∀ q ∈ preds, q.symbol ∉ t.symbols) : M.Sat t ↔ N.Sat t := by
  unfold Sat
  rw [h.eval_eq ht]

/-- Undefined predicates are not changed. -/
theorem rel_iff {p : Nat} {q : Predicate} (hq : preds[p]? = some q) (hd : q.definition = none)
    {es : List (Element U)} (hes : Fits q.sorts es) : M.Rel q es ↔ N.Rel q es := by
  have hfun : M.SameFunctions preds N := h.agree.symm.mono fun _ hf => hf.2
  rw [h.follows hq hd hes, h.reads.undefined hq hd hes, J.congr M N hfun]

end Completes
end Structure

/-- If all defined predicates are safe, what follows an interpretation can be completed. -/
theorem Instance.AllSafe.exists_completes {inst : Instance} (h : inst.AllSafe)
    (hn : DistinctNames inst.preds) {M : Structure U} {J : Interpretation inst.preds}
    (hM : M.Follows J) : ∃ N : Structure U, N.Completes M J := by
  obtain ⟨N, hagree, hreads⟩ := h.exists_reads hn M J
  exact ⟨N, hM, hreads, hagree⟩

namespace Instance

variable {inst : Instance}

/-! ### Applications as conditions -/

/-- An instance whose clauses can be stated as rules: all defined predicates are safe, no definition
contains a quantifier, and neither side conditions nor arguments mention a predicate. -/
structure Expressible (inst : Instance) : Prop where
  wellFormed : inst.WellFormed
  safe : inst.AllSafe
  fitting : inst.FittingDefinitions
  quantifierFree : inst.QuantifierFree
  plain : ∀ c ∈ inst.clauses, ∀ t ∈ c.parts, inst.predsIn t = []

/-- What mentions no predicate has the symbol of none. -/
theorem symbol_not_mem_of_predsIn {t : Term} (h : inst.predsIn t = []) :
    ∀ q ∈ inst.preds, q.symbol ∉ t.symbols :=
  fun q hq hmem => mentions_iff.1 ⟨q, hq, hmem⟩ h

theorem pred_natCast {p : Nat} {q : Predicate} (hq : inst.preds[p]? = some q) :
    inst.pred (p : Int) = .ok q := by
  rw [Instance.pred, atHandle_natCast, hq]

theorem isKnown_natCast {p : Nat} {q : Predicate} (hq : inst.preds[p]? = some q) :
    inst.isKnown (p : Int) = .ok q.definition.isSome := by
  rw [isKnown, pred_natCast hq]
  rfl

/-- What fits the table is an application of a predicate to arguments of its sorts. -/
theorem Accepts.exists_args {a : Nat × List Term} (h : inst.Accepts a) :
    ∃ q args, inst.preds[a.1]? = some q ∧ Term.castAll? q.sorts a.2 = some args ∧
      ∀ t ∈ args, t.isWellSorted [] = true := by
  obtain ⟨q, hq, happ, hw⟩ := h
  obtain ⟨t, ht⟩ := Option.isSome_iff_exists.1 happ
  obtain ⟨args, -, hargs⟩ := Symbol.app?_spec ht
  exact ⟨q, args, hq, hargs, (Term.castAll?_spec hargs).2.2 [] hw⟩

theorem application_eq {a : Nat × List Term} {q : Predicate} {args : List Term}
    (hq : inst.preds[a.1]? = some q) (hargs : Term.castAll? q.sorts a.2 = some args) :
    RuleSystem.application inst a = .ok (.fn q.symbol args) := by
  have happ : q.symbol.app? a.2 = some (.fn q.symbol args) := Symbol.app?_of_castAll? hargs
  unfold RuleSystem.application
  rw [bind_eq_ok]
  refine ⟨q, pred_natCast hq, ?_⟩
  rw [happ]
  rfl

namespace Expressible

variable (h : inst.Expressible) {c : Clause} (hc : c ∈ inst.clauses) {callable : Callable}

include h hc

theorem avoids : c.Avoids (IsUndefined inst.preds) := by
  rintro t ht f hf ⟨q, hq, -, rfl⟩
  exact symbol_not_mem_of_predsIn (h.plain c hc t ht) q hq hf

/-- The arguments of an application in a clause, at the sorts of its predicate, mention no predicate
either. -/
theorem args_plain {a : Nat × List Term} (hparts : ∀ t ∈ a.2, t ∈ c.parts) {ss : List TermSort}
    {args : List Term} (hargs : Term.castAll? ss a.2 = some args) :
    ∀ t ∈ args, ¬inst.Mentions t := by
  rintro t ht ⟨q, hq, hmem⟩
  have hmem' : q.symbol ∈ a.2.flatMap Term.symbols := by
    rw [← (Term.castAll?_spec hargs).2.1]
    exact List.mem_flatMap.2 ⟨t, ht, hmem⟩
  obtain ⟨u, hu, hqu⟩ := List.mem_flatMap.1 hmem'
  exact symbol_not_mem_of_predsIn (h.plain c hc u (hparts u hu)) q hq hqu

/-- **The condition that an application states.** The application of a predicate is expanded, and in
a structure that follows an interpretation its expansion is as true as the application is in a
completion. An application of an undefined predicate is its own expansion. -/
theorem exists_condition (hcall : callable.Reapplies) {a : Nat × List Term}
    (hparts : ∀ t ∈ a.2, t ∈ c.parts) {q : Predicate} {args : List Term}
    (hq : inst.preds[a.1]? = some q) (hargs : Term.castAll? q.sorts a.2 = some args)
    (hw : ∀ t ∈ args, t.isWellSorted [] = true) :
    ∃ u, inst.expand (.fn q.symbol args) callable = .ok u ∧
      (q.definition = none → u = .fn q.symbol args) ∧
      ∀ {U : Universe} {M N : Structure U} {J : Interpretation inst.preds}, N.Completes M J →
        (M.Sat u ↔ N.Applies inst.preds a) := by
  have hfree := h.args_plain hc hparts hargs
  have hs := (Term.castAll?_spec hargs).1
  have happ : q.symbol.app? a.2 = some (.fn q.symbol args) := Symbol.app?_of_castAll? hargs
  have happlies : ∀ {U : Universe} {N : Structure U},
      N.Applies inst.preds a ↔ N.Rel q (args.map (N.eval [])) := fun {U N} => by
    rw [N.applies_iff_sat inst.preds hq happ, N.sat_application]
  cases hd : q.definition with
  | none =>
    refine ⟨_, expand_undefined hcall h.wellFormed.names hq hd hs hw hfree, fun _ => rfl, ?_⟩
    intro U M N J hN
    -- The arguments have the same elements, and these are of the right sorts.
    have heval : args.map (M.eval []) = args.map (N.eval []) :=
      List.map_congr_left fun t ht => hN.eval_eq fun r hr hmem => hfree t ht ⟨r, hr, hmem⟩
    have hfit : Fits q.sorts (args.map (N.eval [])) := (N.fits_eval hw).trans hs
    rw [M.sat_application, happlies, heval, hN.rel_iff hq hd hfit]
  | some d =>
    obtain ⟨u, hu, hmentions, hsat⟩ := expand_defined hcall h.wellFormed.names h.safe h.fitting
      h.quantifierFree hq hd hs hw hfree
    refine ⟨u, hu, fun hnone => (by cases hnone), ?_⟩
    intro U M N J hN
    rw [hN.sat_iff fun r hr hmem => hmentions ⟨r, hr, hmem⟩, happlies]
    exact hsat hN.reads.defined

end Expressible

end Instance

/-! ### The rule of a clause -/

namespace RuleSystem

variable {callable : Callable} {inst : Instance} {background : Accumulator} {c : Clause}

/-- How a clause whose left side states some conditions is put into a rule. -/
inductive Stated (callable : Callable) (inst : Instance) (c : Clause) (conditions : List Term) :
    Rule → Prop
  | contradiction : c.conclusion = none →
      Stated callable inst c conditions ⟨c.vars, bodyOf conditions, errorHead⟩
  | constraint {a : Nat × List Term} {t u : Term} : c.conclusion = some a →
      inst.isKnown a.1 = .ok true → application inst a = .ok t → inst.expand t callable = .ok u →
      Stated callable inst c conditions ⟨c.vars, bodyOf (conditions ++ [u.neg]), errorHead⟩
  | production {a : Nat × List Term} {t : Term} : c.conclusion = some a →
      inst.isKnown a.1 = .ok false → application inst a = .ok t →
      Stated callable inst c conditions ⟨c.vars, bodyOf conditions, t⟩

/-- The rule of a clause: the side conditions and the conditions of all applications, with the
conclusion as one of three cases. -/
theorem ruleOf_eq_ok {r : Rule} : ruleOf callable inst background c = .ok r ↔
    ∃ conditions, List.Forall₂ (fun a ts => conditionsOf callable inst background a = .ok ts)
        c.apps conditions ∧
      Stated callable inst c (c.terms ++ conditions.flatten) r := by
  unfold ruleOf
  -- The conditions are those of the applications in any case; the conclusion decides what they
  -- state.
  rw [bind_eq_ok]
  simp only [mapM_eq_ok]
  refine exists_congr fun conditions => and_congr_right fun _ => ?_
  cases hc : c.conclusion with
  | none =>
    constructor
    · rintro ⟨⟩
      exact .contradiction hc
    · rintro (_ | ⟨hc', _⟩ | ⟨hc', _⟩)
      · rfl
      · rw [hc] at hc'
        cases hc'
      · rw [hc] at hc'
        cases hc'
  | some a =>
    dsimp only
    constructor
    · intro h
      obtain ⟨t, ht, h⟩ := bind_eq_ok.1 h
      obtain ⟨b, hb, h⟩ := bind_eq_ok.1 h
      -- A conclusion with a definition is known, so it is a constraint rather than a production.
      cases b with
      | false =>
        cases h
        exact .production hc hb ht
      | true =>
        obtain ⟨u, hu, h⟩ := bind_eq_ok.1 h
        cases h
        exact .constraint hc hb ht hu
    · rintro (hc' | ⟨hc', hb, ht, hu⟩ | ⟨hc', hb, ht⟩)
      · rw [hc] at hc'
        cases hc'
      · obtain rfl := Option.some.inj (hc.symm.trans hc')
        exact bind_eq_ok.2 ⟨_, ht, bind_eq_ok.2 ⟨_, hb, bind_eq_ok.2 ⟨_, hu, rfl⟩⟩⟩
      · obtain rfl := Option.some.inj (hc.symm.trans hc')
        exact bind_eq_ok.2 ⟨_, ht, bind_eq_ok.2 ⟨_, hb, rfl⟩⟩

theorem conditionsOf_eq_ok {a : Nat × List Term} {ts : List Term} :
    conditionsOf callable inst background a = .ok ts ↔ ∃ t u known, application inst a = .ok t ∧
      inst.expand t callable = .ok u ∧ knownAt inst background a = .ok known ∧ ts = u :: known := by
  unfold conditionsOf
  constructor
  · intro h
    obtain ⟨t, ht, h⟩ := bind_eq_ok.1 h
    obtain ⟨u, hu, h⟩ := bind_eq_ok.1 h
    obtain ⟨known, hknown, h⟩ := bind_eq_ok.1 h
    cases h
    exact ⟨t, u, known, ht, hu, hknown, rfl⟩
  · rintro ⟨t, u, known, ht, hu, hknown, rfl⟩
    exact bind_eq_ok.2 ⟨t, ht, bind_eq_ok.2 ⟨u, hu, bind_eq_ok.2 ⟨known, hknown, rfl⟩⟩⟩

/-- An empty body is replaced by one that is true. -/
theorem sat_bodyOf (M : Structure U) (ts : List Term) :
    (∀ t ∈ bodyOf ts, M.Sat t) ↔ ∀ t ∈ ts, M.Sat t := by
  unfold bodyOf
  split
  · next hempty =>
    rw [List.isEmpty_iff.1 hempty, List.forall_mem_singleton]
    exact iff_of_true (M.sat_of_isVerum rfl) (List.forall_mem_nil _)
  · exact Iff.rfl

/-- The known formulas that are added for the applications of a clause are true. -/
def Known (inst : Instance) (background : Accumulator) (c : Clause) (M : Structure U) : Prop :=
  ∀ a ∈ c.apps, ∀ known, knownAt inst background a = .ok known → ∀ t ∈ known, M.Sat t

section

variable (h : inst.Expressible) (hc : c ∈ inst.clauses) {M N : Structure U}
  {J : Interpretation inst.preds} (hN : N.Completes M J)

include h hc hN

/-- The conditions of an application are true if the application is true in the completion, and what
is known of its predicate holds. -/
theorem sat_conditionsOf {a : Nat × List Term} (ha : a ∈ c.apps) {ts : List Term}
    (hts : conditionsOf callable inst background a = .ok ts) : (∀ t ∈ ts, M.Sat t) ↔
      N.Applies inst.preds a ∧ ∀ known, knownAt inst background a = .ok known →
        ∀ t ∈ known, M.Sat t := by
  obtain ⟨q, args, hq, hargs, hw⟩ := ((h.wellFormed.clauses c hc).apps a ha).exists_args
  obtain ⟨u, hu, -, hsat⟩ := h.exists_condition hc Callable.reapplies_any
    (fun t ht => Clause.mem_parts_of_app ha ht) hq hargs hw
  obtain ⟨t, u', known, ht, hu', hknown, rfl⟩ := conditionsOf_eq_ok.1 hts
  rw [Instance.application_eq hq hargs] at ht
  cases ht
  rw [(Instance.expand_unlessRefused callable inst _).ok hu'] at hu
  cases hu
  rw [List.forall_mem_cons, hsat hN, hknown]
  simp only [Except.ok.injEq, forall_eq']

/-- The left side of a rule is true if the one of the clause is true in the completion, and what is
known holds. -/
theorem sat_conditions {conditions : List (List Term)}
    (hcond : List.Forall₂ (fun a ts => conditionsOf callable inst background a = .ok ts)
      c.apps conditions) :
    (∀ t ∈ c.terms ++ conditions.flatten, M.Sat t) ↔
      N.Body inst.preds c ∧ Known inst background c M := by
  -- Side conditions mention no predicate, so they mean the same in both structures.
  have hterms : (∀ t ∈ c.terms, M.Sat t) ↔ ∀ t ∈ c.terms, N.Sat t :=
    forall₂_congr fun t ht => hN.sat_iff
      (Instance.symbol_not_mem_of_predsIn (h.plain c hc t (Clause.mem_parts_of_term ht)))
  have happs : (∀ ts ∈ conditions, ∀ t ∈ ts, M.Sat t) ↔
      ∀ a ∈ c.apps, N.Applies inst.preds a ∧ ∀ known, knownAt inst background a = .ok known →
        ∀ t ∈ known, M.Sat t := by
    obtain ⟨hl, hr⟩ := exists_of_forall₂ hcond
    constructor
    · intro hall a ha
      obtain ⟨ts, hts, hats⟩ := hl a ha
      exact (sat_conditionsOf h hc hN ha hats).1 (hall ts hts)
    · intro hall ts hts
      obtain ⟨a, ha, hats⟩ := hr ts hts
      exact (sat_conditionsOf h hc hN ha hats).2 (hall a ha)
  rw [List.forall_mem_append, hterms, List.forall_mem_flatten, happs]
  constructor
  · rintro ⟨hterms, happs⟩
    exact ⟨⟨hterms, fun a ha => (happs a ha).1⟩, fun a ha => (happs a ha).2⟩
  · rintro ⟨hbody, hknown⟩
    exact ⟨hbody.terms, fun a ha => ⟨hbody.apps a ha, hknown a ha⟩⟩

/-- **What a rule states.** In a structure that follows an interpretation, the rule of a clause is
true exactly if, as far as what is known holds, the clause is true in the completion, or the rule
concludes the error and that is true. -/
theorem satRule_iff {r : Rule} (hr : ruleOf callable inst background c = .ok r) :
    M.SatRule r ↔ (N.Body inst.preds c → Known inst background c M →
      (∃ a ∈ c.conclusion, N.Applies inst.preds a) ∨ (r.head = errorHead ∧ M.Sat errorHead)) := by
  obtain ⟨conditions, hcond, hstated⟩ := ruleOf_eq_ok.1 hr
  have hbody := sat_conditions h hc hN hcond
  unfold Structure.SatRule
  cases hstated with
  | contradiction hnone =>
    rw [sat_bodyOf, hbody, and_imp]
    refine forall₂_congr fun _ _ => ?_
    rw [or_iff_right]
    · exact (and_iff_right rfl).symm
    · rintro ⟨a, ha, -⟩
      rw [hnone] at ha
      cases ha
  | @constraint a t u ha hdef ht hu =>
    obtain ⟨q, args, hq, hargs, hw⟩ :=
      ((h.wellFormed.clauses c hc).conclusion a ha).exists_args
    obtain ⟨u', hu', -, hsat⟩ := h.exists_condition hc Callable.reapplies_any
      (fun t ht => Clause.mem_parts_of_conclusion ha ht) hq hargs hw
    rw [Instance.application_eq hq hargs] at ht
    cases ht
    rw [(Instance.expand_unlessRefused callable inst _).ok hu] at hu'
    cases hu'
    -- The negation of the conclusion is one more condition.
    rw [sat_bodyOf, List.forall_mem_append, List.forall_mem_singleton, hbody, M.sat_neg, hsat hN,
      and_imp, and_imp, ha]
    refine forall₂_congr fun _ _ => ?_
    simp only [Option.mem_def, Option.some.injEq, exists_eq_left', true_and, or_iff_not_imp_left]
  | @production a t ha hdef ht =>
    obtain ⟨q, args, hq, hargs, hw⟩ :=
      ((h.wellFormed.clauses c hc).conclusion a ha).exists_args
    obtain ⟨u, -, hself, hsat⟩ := h.exists_condition hc Callable.reapplies_any
      (fun t ht => Clause.mem_parts_of_conclusion ha ht) hq hargs hw
    rw [Instance.application_eq hq hargs] at ht
    cases ht
    rw [Instance.isKnown_natCast hq, Except.ok.injEq, Option.isSome_eq_false_iff,
      Option.isNone_iff_eq_none] at hdef
    obtain rfl := hself hdef
    -- The head is the conclusion, also if that is the error.
    rw [sat_bodyOf, hbody, and_imp, ha]
    refine forall₂_congr fun _ _ => ?_
    simp only [Option.mem_def, Option.some.injEq, exists_eq_left', ← hsat hN]
    exact (or_iff_left_of_imp fun herror => herror.1 ▸ herror.2).symm

end

/-! ### Systems -/

/-- A system has one rule for each clause. -/
theorem ofInstance_ok {sys : RuleSystem} (hsys : ofInstance callable inst background = .ok sys) :
    sys.relations = (inst.preds.filter (·.definition.isNone)).map (·.symbol) ∧
      sys.error = errorRelation ∧
      List.Forall₂ (fun c r => ruleOf callable inst background c = .ok r)
        inst.clauses sys.rules := by
  obtain ⟨rules, hrules, h⟩ := bind_eq_ok.1 hsys
  cases h
  exact ⟨rfl, rfl, mapM_eq_ok.1 hrules⟩

/-- **Clauses that are true have true rules.** An interpretation solves the rules of an instance if
it makes the error false, and all clauses are true as far as what is known holds. -/
theorem solves_of_satClause (h : inst.Expressible) {sys : RuleSystem}
    (hsys : ofInstance callable inst background = .ok sys) {J : Interpretation inst.preds}
    (hfalse : J.Falsifies errorRelation)
    (hall : ∀ c ∈ inst.clauses, ∀ {U : Universe} {M N : Structure U}, N.Completes M J →
      Known inst background c M → N.SatClause inst.preds c) : J.Solves sys := by
  obtain ⟨-, herror, hrules⟩ := ofInstance_ok hsys
  refine ⟨herror ▸ hfalse, fun r hr U M hM _ => ?_⟩
  obtain ⟨c, hc, hcr⟩ := (exists_of_forall₂ hrules).2 r hr
  -- The structure is completed by the definitions before the clause can be read in it.
  obtain ⟨N, hN⟩ := h.safe.exists_completes h.wellFormed.names hM
  exact (satRule_iff h hc hN hcr).2 fun hbody hknown => .inl (hall c hc hN hknown hbody)

/-- **Rules that are true have true clauses,** as far as what is known holds and the error is
false. -/
theorem satClause_of_solves (h : inst.Expressible) {sys : RuleSystem}
    (hsys : ofInstance callable inst background = .ok sys) {J : Interpretation inst.preds}
    (hJ : J.Solves sys) (hc : c ∈ inst.clauses) {M N : Structure U} (hN : N.Completes M J)
    (hfalse : ¬M.Sat errorHead) (hknown : Known inst background c M) :
    N.SatClause inst.preds c := by
  obtain ⟨-, herror, hrules⟩ := ofInstance_ok hsys
  obtain ⟨r, hr, hcr⟩ := (exists_of_forall₂ hrules).1 c hc
  have hrule := hJ.rules r hr M hN.follows (by
    rw [herror]
    exact fun hsat => absurd hsat hfalse)
  intro hbody
  -- The error is not concluded, so the clause concludes something else.
  exact ((satRule_iff h hc hN hcr).1 hrule hbody hknown).resolve_right fun hhead => hfalse hhead.2

/-! ### Systems exist -/

/-- What is known can be stated at the arguments of all applications: they are of the sorts of the
signature, as they stand. -/
def Exact (inst : Instance) (background : Accumulator) : Prop :=
  ∀ c ∈ inst.clauses, ∀ a ∈ c.apps, background.has a.1 = true →
    ∀ q, inst.preds[a.1]? = some q → a.2.map Term.sort = q.sorts

instance (inst : Instance) (background : Accumulator) : Decidable (Exact inst background) :=
  inferInstanceAs (Decidable (∀ c ∈ inst.clauses, ∀ a ∈ c.apps, background.has a.1 = true →
    ∀ q ∈ inst.preds[a.1]?, a.2.map Term.sort = q.sorts))

/-- What is known at the arguments of an application is the conjunction of the fragments with the
arguments in place of the formal parameters. -/
theorem knownAt_eq {a : Nat × List Term} {q : Predicate} (hq : inst.preds[a.1]? = some q)
    (hs : background.has a.1 = true → a.2.map Term.sort = q.sorts) :
    knownAt inst background a = .ok (if background.has a.1 then
      [Term.substitute (q.params.zip a.2) (background.conjunction a.1)] else []) := by
  unfold knownAt
  cases hhas : background.has a.1 with
  | false => rfl
  | true =>
    have hsorts := hs hhas
    rw [Instance.pred_natCast hq]
    change (if q.params.isEmpty then _ else _) = _
    split
    · next hempty =>
      -- Without parameters the conjunction is taken as it is.
      rw [List.isEmpty_iff.1 hempty, List.zip_nil_left, Term.substitute_nil]
      rfl
    · rfl

/-- Where something is stated, the arguments are of the sorts of the signature. -/
theorem sorts_of_knownAt {a : Nat × List Term} {q : Predicate} {args known : List Term}
    (hq : inst.preds[a.1]? = some q) (hargs : Term.castAll? q.sorts a.2 = some args)
    (hhas : background.has a.1 = true) (h : knownAt inst background a = .ok known) :
    a.2.map Term.sort = q.sorts := by
  unfold knownAt at h
  rw [hhas, Instance.pred_natCast hq] at h
  change (if q.params.isEmpty then _ else _) = _ at h
  split at h
  -- A predicate without arguments has nothing to check.
  · next hempty =>
    have hnil : q.sorts = [] := by
      rw [← Predicate.sorts_params, List.isEmpty_iff.1 hempty, List.map_nil]
    rw [hnil] at hargs ⊢
    have hlength := Term.length_of_castAll? hargs
    rw [List.length_eq_zero_iff.1 hlength.symm, List.map_nil]
  · split at h
    · next hsorts => exact hsorts
    · cases h

/-- Every clause has a rule. -/
theorem exists_ruleOf (hcall : callable.Reapplies) (h : inst.Expressible)
    (hexact : Exact inst background) (hc : c ∈ inst.clauses) :
    ∃ r, ruleOf callable inst background c = .ok r := by
  have hfits := h.wellFormed.clauses c hc
  obtain ⟨conditions, hconditions⟩ : ∃ conditions,
      c.apps.mapM (conditionsOf callable inst background) = .ok conditions := by
    -- Each application is that of a predicate of the instance, and can be stated as a condition.
    refine exists_mapM_eq_ok fun a ha => ?_
    obtain ⟨q, args, hq, hargs, hw⟩ := (hfits.apps a ha).exists_args
    obtain ⟨u, hu, -, -⟩ :=
      h.exists_condition hc hcall (fun t ht => Clause.mem_parts_of_app ha ht) hq hargs hw
    have hknown := knownAt_eq hq fun hhas => hexact c hc a ha hhas q hq
    exact ⟨_, conditionsOf_eq_ok.2 ⟨_, u, _, Instance.application_eq hq hargs, hu, hknown, rfl⟩⟩
  have hstated : ∃ r, Stated callable inst c (c.terms ++ conditions.flatten) r := by
    cases hconclusion : c.conclusion with
    | none => exact ⟨_, .contradiction hconclusion⟩
    | some a =>
      obtain ⟨q, args, hq, hargs, hw⟩ := (hfits.conclusion a hconclusion).exists_args
      obtain ⟨u, hu, -, -⟩ := h.exists_condition hc hcall
        (fun t ht => Clause.mem_parts_of_conclusion hconclusion ht) hq hargs hw
      have hdef := Instance.isKnown_natCast hq
      have happ := Instance.application_eq hq hargs
      cases hb : q.definition.isSome with
      | false => exact ⟨_, .production hconclusion (hb ▸ hdef) happ⟩
      | true => exact ⟨_, .constraint hconclusion (hb ▸ hdef) happ hu⟩
  obtain ⟨r, hr⟩ := hstated
  exact ⟨r, ruleOf_eq_ok.2 ⟨conditions, mapM_eq_ok.1 hconditions, hr⟩⟩

/-- **The rules of an instance exist,** if applications can be built anew. -/
theorem exists_ofInstance (hcall : callable.Reapplies) (h : inst.Expressible)
    (hexact : Exact inst background) : ∃ sys, ofInstance callable inst background = .ok sys := by
  obtain ⟨rules, hrules⟩ := exists_mapM_eq_ok fun c hc => exists_ruleOf hcall h hexact hc
  have hok : ofInstance callable inst background =
      .ok ⟨(inst.preds.filter (·.definition.isNone)).map (·.symbol), errorRelation, rules⟩ := by
    rw [ofInstance, hrules]
    rfl
  exact ⟨_, hok⟩

end RuleSystem
end Horn
