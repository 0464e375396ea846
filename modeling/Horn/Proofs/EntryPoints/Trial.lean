import Horn.Proofs.EntryPoints.Recover
import Horn.Proofs.Instance.Index

/-!
# Trials of clauses

What it means that a clause has been tried. The clauses that are tried for a predicate are those
that conclude it and have safe predicates only on the left (`Reconstruction.mem_clausesFor`,
`Reconstruction.exists_of_mem_clausesFor`), and a trial that ends well is an answer of the engine
about what the query asserts (`Reconstruction.exists_answer_of_tried`).

If the two instances fit together (`Reconstruction.Compatible`), the query asserts formulas
(`Reconstruction.isFormula_of_constraints`), and the formula of an application may stand for the
application to the arguments that the signature has kept (`Reconstruction.stands_of_resolveApp`).
-/

namespace Horn
namespace Reconstruction

variable {engine : Engine} {r : Reconstruction} {pred : Int} {sample : Sample}

/-! ### The clauses that are tried -/

/-- A clause that concludes the predicate and has safe predicates only is among those that are
tried. -/
theorem mem_clausesFor (hi : r.original.Indexed) {p : Nat} {facts others : List Nat}
    (h : r.clausesFor p = .ok (facts, others)) {c : Clause} (hc : c ∈ r.original.clauses)
    (hp : p ∈ c.concludedPreds) (hsafe : ∀ u ∈ c.usedPreds, u ∈ r.safe) :
    c.index ∈ facts ++ others := by
  unfold clausesFor at h
  obtain ⟨is, his, h⟩ := bind_eq_ok.1 h
  cases h
  have hmem : c ∈ is.filterMap (r.original.clauses[·]?) :=
    List.mem_filterMap.2 ⟨c.index, hi.mem_producers hc hp his, hi.getElem?_index hc⟩
  rw [List.mem_append]
  -- The clause has no predicate on the left, or it has some.
  by_cases hempty : c.uses.isEmpty = true
  · exact .inl (List.mem_map_of_mem (List.mem_filter.2 ⟨hmem, hempty⟩))
  · refine .inr (List.mem_map_of_mem (List.mem_filter.2 ⟨hmem, ?_⟩))
    simpa [hempty] using hsafe

/-- Only such clauses are tried. -/
theorem exists_of_mem_clausesFor {facts others : List Nat}
    (h : r.clausesFor pred = .ok (facts, others)) {i : Nat} (hi : i ∈ facts ++ others) :
    ∃ c ∈ r.original.clauses, c.index = i ∧ ∀ u ∈ c.usedPreds, u ∈ r.safe := by
  unfold clausesFor at h
  obtain ⟨is, -, h⟩ := bind_eq_ok.1 h
  cases h
  -- The clauses are looked up by number, and a number without a clause is left out.
  have hmem : ∀ {c}, c ∈ is.filterMap (r.original.clauses[·]?) → c ∈ r.original.clauses := by
    intro c hc
    obtain ⟨j, -, hj⟩ := List.mem_filterMap.1 hc
    exact List.mem_of_getElem? hj
  rcases List.mem_append.1 hi with hi | hi
  · obtain ⟨c, hc, rfl⟩ := List.mem_map.1 hi
    obtain ⟨hc, hempty⟩ := List.mem_filter.1 hc
    refine ⟨c, hmem hc, rfl, ?_⟩
    -- A fact uses no predicate at all.
    rw [Clause.usedPreds, List.isEmpty_iff.1 hempty]
    exact List.forall_mem_nil _
  · obtain ⟨c, hc, rfl⟩ := List.mem_map.1 hi
    obtain ⟨hc, hsafe⟩ := List.mem_filter.1 hc
    refine ⟨c, hmem hc, rfl, ?_⟩
    rw [Bool.and_eq_true] at hsafe
    simpa using hsafe.2

/-! ### Outcomes -/

/-- A trial of a clause that concludes the predicate, with as many arguments as the sample has, is a
query. -/
theorem tried_of_conclusion {clause : Int} {c : Clause} (hc : r.original.clause clause = .ok c)
    {p : Nat} {args : List Term} (hconclusion : c.conclusion = some (p, args))
    (hp : (p : Int) = pred) (hargs : args.length = sample.args.length) :
    tried engine r pred sample clause =
      ((constraints engine.callable r.session c args sample.args).bind
        (answer engine r.positive r.session c)).mapError (blame clause sample) := by
  unfold tried
  rw [hc, ok_bind, hconclusion]
  dsimp only
  rw [if_neg (not_not_intro hp), if_neg (not_not_intro hargs)]

/-- A trial that ends well is an answer about what the query asserts. -/
theorem exists_answer_of_tried {clause : Int} {c : Clause} (hc : r.original.clause clause = .ok c)
    {o : Option (List Sample)} (h : tried engine r pred sample clause = .ok o) :
    ∃ p args ts, c.conclusion = some (p, args) ∧ (p : Int) = pred ∧
      args.length = sample.args.length ∧
      constraints engine.callable r.session c args sample.args = .ok ts ∧
      answer engine r.positive r.session c ts = .ok o := by
  unfold tried at h
  rw [hc, ok_bind] at h
  cases hconclusion : c.conclusion with
  | none =>
    rw [hconclusion] at h
    cases h
  | some a =>
    obtain ⟨p, args⟩ := a
    rw [hconclusion] at h
    dsimp only at h
    split at h
    · -- The clause concludes another predicate.
      obtain ⟨_, -, h⟩ := bind_eq_ok.1 h
      obtain ⟨_, -, h⟩ := bind_eq_ok.1 h
      cases h
    · next hp =>
      split at h
      · cases h
      · next hargs =>
        obtain ⟨ts, hts, hanswer⟩ := bind_eq_ok.1 (mapError_eq_ok.1 h)
        exact ⟨p, args, ts, rfl, not_not.1 hp, not_not.1 hargs, hts, hanswer⟩

theorem tried_ok (hi : r.original.Indexed) {c : Clause} (hc : c ∈ r.original.clauses)
    {o : Option (List Sample)} (h : tried engine r pred sample c.index = .ok o) :
    ∃ p args ts, c.conclusion = some (p, args) ∧
      constraints engine.callable r.session c args sample.args = .ok ts ∧
      answer engine r.positive r.session c ts = .ok o := by
  have hfound : r.original.clause c.index = .ok c := by
    rw [Instance.clause, atHandle_natCast, hi.getElem?_index hc]
  obtain ⟨p, args, ts, hconclusion, -, -, hanswer⟩ := exists_answer_of_tried hfound h
  exact ⟨p, args, ts, hconclusion, hanswer⟩

/-- Only a refutation is an answer without samples. -/
theorem unsat_of_answer {positive : List Nat} {s : Session} {c : Clause} {ts : List Term}
    (h : answer engine positive s c ts = .ok none) :
    engine.check (s.assertions ++ ts) = .unsat := by
  unfold answer at h
  split at h
  · cases h
  · next hcheck => exact hcheck
  · next m _ => cases hm : evaluated positive c m <;> rw [hm] at h <;> cases h

/-- The samples of an answer come from a model. -/
theorem sat_of_answer {positive : List Nat} {s : Session} {c : Clause} {ts : List Term}
    {found : List Sample} (h : answer engine positive s c ts = .ok (some found)) :
    ∃ m, engine.check (s.assertions ++ ts) = .sat m ∧ evaluated positive c m = .ok found := by
  unfold answer at h
  split at h
  · cases h
  · cases h
  · next m hcheck =>
    refine ⟨m, hcheck, ?_⟩
    cases hm : evaluated positive c m with
    | error e =>
      rw [hm] at h
      cases h
    | ok found' =>
      rw [hm] at h
      cases h
      rfl

/-- If nothing is found, every clause has been tried in vain. -/
theorem tried_of_firstTried {cs : List Nat} (h : firstTried engine r pred sample cs = .ok none) :
    ∀ i ∈ cs, tried engine r pred sample (i : Nat) = .ok none := by
  induction cs with
  | nil => exact List.forall_mem_nil _
  | cons c cs ih =>
    obtain ⟨found, hfound, h⟩ := bind_eq_ok.1 h
    cases found with
    | some found => cases h
    | none => exact List.forall_mem_cons.2 ⟨hfound, ih h⟩

/-- What is found comes from the trial of one of the clauses. -/
theorem exists_tried_of_firstTried {cs : List Nat} {found : List Sample}
    (h : firstTried engine r pred sample cs = .ok (some found)) :
    ∃ i ∈ cs, tried engine r pred sample (i : Nat) = .ok (some found) := by
  induction cs with
  | nil => cases h
  | cons c cs ih =>
    obtain ⟨found', hfound, h⟩ := bind_eq_ok.1 h
    cases found' with
    | some found' =>
      cases h
      exact ⟨c, List.mem_cons_self, hfound⟩
    | none =>
      obtain ⟨i, hi, htried⟩ := ih h
      exact ⟨i, List.mem_cons_of_mem c hi, htried⟩

/-- What is recovered comes from the trial of a clause with safe predicates only. -/
theorem exists_tried_of_recovered {found : List Sample}
    (h : recovered engine r pred sample = .ok found) :
    ∃ c ∈ r.original.clauses, (∀ u ∈ c.usedPreds, u ∈ r.safe) ∧
      tried engine r pred sample c.index = .ok (some found) := by
  obtain ⟨rendered, -, h⟩ := bind_eq_ok.1 h
  obtain ⟨⟨facts, others⟩, hclauses, h⟩ := bind_eq_ok.1 h
  obtain ⟨found', hfound, h⟩ := bind_eq_ok.1 h
  cases found' with
  | none => cases h
  | some found' =>
    cases h
    obtain ⟨i, hi, htried⟩ := exists_tried_of_firstTried hfound
    obtain ⟨c, hc, rfl, hsafe⟩ := exists_of_mem_clausesFor hclauses hi
    exact ⟨c, hc, hsafe, htried⟩

/-! ### Instances that fit together -/

/-- The two instances of a reconstruction fit together: definitions fit their predicates, clauses
are indexed, and their side conditions and arguments mention no predicate. -/
structure Compatible (original working : Instance) : Prop where
  names : DistinctNames working.preds
  definitions : working.FittingDefinitions
  indexed : original.Indexed
  wellSorted : ∀ c ∈ original.clauses, ∀ t ∈ c.parts, t.isWellSorted [] = true
  free : ∀ c ∈ original.clauses, ∀ t ∈ c.parts, ¬working.Mentions t

instance (original working : Instance) : Decidable (Compatible original working) :=
  decidable_of_iff (DistinctNames working.preds ∧ working.FittingDefinitions ∧ original.Indexed ∧
      (∀ c ∈ original.clauses, ∀ t ∈ c.parts, t.isWellSorted [] = true) ∧
      ∀ c ∈ original.clauses, ∀ t ∈ c.parts, ¬working.Mentions t)
    ⟨fun h => ⟨h.1, h.2.1, h.2.2.1, h.2.2.2.1, h.2.2.2.2⟩,
      fun h => ⟨h.names, h.definitions, h.indexed, h.wellSorted, h.free⟩⟩

section Compatible

variable {original working : Instance} {c : Clause}

/-- The formula that is asserted for an application of a safe predicate may stand for the
application to the projected arguments. -/
theorem stands_of_resolveApp (h : Compatible original working) {p : Nat} {args : List Term}
    (hp : p ∈ working.safePredicates) (hw : ∀ t ∈ args, t.isWellSorted [] = true)
    (hfree : ∀ t ∈ args, ¬working.Mentions t) {callable : Callable} {name : String} {u : Term}
    (hu : Session.resolveApp callable name working p args true = .ok u) :
    ∃ q bs, working.preds[p]? = some q ∧
      Term.castAll? q.sorts (q.positions.map fun i => (args[i]?).getD .verum) = some bs ∧
      working.Stands (· ∈ working.safePredicates) (.fn q.symbol bs) u := by
  obtain ⟨q, bs, hq, -, hbs, hu⟩ := resolveApp_ok hu
  obtain ⟨hsorts, hwell, hfree'⟩ := projected_spec hbs hw hfree
  have hwt : (Term.fn q.symbol bs).isWellSorted [] = true := Term.isWellSorted_fn hsorts hwell
  have hamong : working.Among (· ∈ working.safePredicates) (.fn q.symbol bs) := by
    refine Instance.among_fn.2 ⟨fun p' q' hq' hs => ?_, fun b hb p' q' hq' hs => ?_⟩
    · rwa [h.names.index_eq hq' hq hs]
    · exact absurd ⟨q', List.mem_of_getElem? hq', hs⟩ (hfree' b hb)
  exact ⟨q, bs, hq, hbs,
    Instance.stands_of_expand h.definitions working.closed_safe hwt hamong hu⟩

/-- The equation of an argument and a value is a formula. -/
theorem isFormula_of_pinned {arg : Term} {v : Value} {vs : List Term}
    (hw : arg.isWellSorted [] = true) (h : pinned arg v = .ok vs) : ∀ u ∈ vs, u.IsFormula := by
  rcases pinned_ok h with rfl | ⟨l, -, hl, rfl⟩
  · exact List.forall_mem_nil _
  · refine List.forall_mem_singleton.2 ⟨rfl, ?_⟩
    simp [Term.eq, Term.isWellSorted, Term.isWellSortedList, Op.fits, Term.sort, hw, hl]

/-- **A query asserts formulas**, for a clause with safe predicates only. -/
theorem isFormula_of_constraints (h : Compatible original working) {callable : Callable}
    {session : Session} (hc : c ∈ original.clauses)
    (hsafe : ∀ p ∈ c.usedPreds, p ∈ working.safePredicates)
    (hsession : c.usedPreds ≠ [] → session.definitions = some working) {p : Nat}
    {args ts : List Term} {values : List Value} (hconclusion : c.conclusion = some (p, args))
    (hts : constraints callable session c args values = .ok ts) : ∀ u ∈ ts, u.IsFormula := by
  intro u hu
  rcases (mem_constraints hts u).1 hu with ⟨t, ht, vs, hvs, hu⟩ | ⟨a, ha, vs, hvs, hu⟩ |
    ⟨⟨arg, v⟩, ha, vs, hvs, hu⟩
  · -- A side condition.
    obtain ⟨hbool, rfl⟩ := formula_ok hvs
    obtain rfl := List.mem_singleton.1 hu
    exact ⟨hbool, h.wellSorted c hc u (Clause.mem_parts_of_term ht)⟩
  · -- An application on the left.
    have hused : a.1 ∈ c.usedPreds := Clause.mem_usedPreds ha
    obtain ⟨inst, u', hdefinitions, hresolve, hbool, rfl⟩ := application_ok hvs
    obtain rfl := List.mem_singleton.1 hu
    obtain rfl := Option.some.inj
      (hdefinitions.symm.trans (hsession (List.ne_nil_of_mem hused)))
    obtain ⟨_, _, -, -, hstands⟩ := stands_of_resolveApp h (hsafe a.1 hused)
      (fun t ht => h.wellSorted c hc t (Clause.mem_parts_of_app ha ht))
      (fun t ht => h.free c hc t (Clause.mem_parts_of_app ha ht)) hresolve
    exact ⟨hbool, hstands.wellSorted⟩
  · -- An argument of the conclusion.
    have harg : arg.isWellSorted [] = true := h.wellSorted c hc arg
      (Clause.mem_parts_of_conclusion hconclusion (List.of_mem_zip ha).1)
    exact isFormula_of_pinned harg hvs u hu

end Compatible

end Reconstruction
end Horn
