import Horn.Proofs.Instance.Resolve
import Horn.Proofs.Semantics.SubstitutionLemma

/-!
# The meaning of expansions

Where the defined predicates are as their definitions say, a term and its expansion denote the same.
If operators can be called with as many arguments as their applications have
(`Callable.Reapplies`), every well-sorted term has an expansion, and this is independent of which
definitions are unfolded (`Instance.exists_expandFrom`): the term after one more unfolding may stand
for the term before (`Instance.standsIn_apply`), and the arguments of an application may be replaced
by what stands for them.

The definitions of a set of predicates are enough for a term that mentions no other predicates, if
the definitions mention no others either (`Instance.Closed`); and the expansion mentions no others.
For the safe predicates there are structures that are as their definitions say
(`Instance.exists_readsOn_safe`).

The expansion of an application of a safe predicate, if all definitions are without quantifiers,
mentions no predicate any more (`Instance.expand_defined`). If the definition of the predicate
mentions none, it is the definition with the arguments in place of the parameters
(`Instance.expand_free`). An application of an undefined predicate is its own expansion
(`Instance.expand_undefined`).
-/

namespace Horn

variable {U : Universe}

namespace Term

mutual

/-- Without quantifiers nothing stands under one. -/
theorem inner_eq_nil : ∀ {t : Term}, t.hasQuantifier = false → t.inner = []
  | .lit _, _ => rfl
  | .bound _ _, _ => rfl
  | .fn _ _, h => innerList_eq_nil h
  | .op _ _, h => innerList_eq_nil h
  | .quant _ _ _, h => nomatch h

theorem innerList_eq_nil : ∀ {as : List Term}, hasQuantifierList as = false → innerList as = []
  | [], _ => rfl
  | a :: as, h => by
    rw [hasQuantifierList, Bool.or_eq_false_iff] at h
    rw [innerList, inner_eq_nil h.1, innerList_eq_nil h.2, List.append_nil]

end

end Term

namespace Structure

/-- The defined predicates are as their definitions say. -/
def ReadsDefinitions (M : Structure U) (preds : List Predicate) : Prop :=
  ∀ {q d es}, q ∈ preds → q.definition = some d → Fits q.sorts es →
    (M.Rel q es ↔ (M.assign (d.params.zip es)).Sat d.body)

/-- The predicates of a set are as their definitions say. -/
def ReadsOn (M : Structure U) (preds : List Predicate) (S : Nat → Prop) : Prop :=
  ∀ ⦃p q d es⦄, S p → preds[p]? = some q → q.definition = some d → Fits q.sorts es →
    (M.Rel q es ↔ (M.assign (d.params.zip es)).Sat d.body)

theorem ReadsDefinitions.readsOn {M : Structure U} {preds : List Predicate}
    (h : M.ReadsDefinitions preds) (S : Nat → Prop) : M.ReadsOn preds S :=
  fun _ _ _ _ _ hq hd hes => h (List.mem_of_getElem? hq) hd hes

end Structure

namespace Instance

variable {inst : Instance} {S : Nat → Prop} {callable : Callable}

/-! ### Terms over a set of predicates -/

/-- The term mentions predicates of the set only. -/
def Among (inst : Instance) (S : Nat → Prop) (t : Term) : Prop :=
  ∀ ⦃p q⦄, inst.preds[p]? = some q → q.symbol ∈ t.symbols → S p

/-- The definitions of the predicates of the set mention predicates of the set only. -/
def Closed (inst : Instance) (S : Nat → Prop) : Prop :=
  ∀ ⦃p q d⦄, S p → inst.preds[p]? = some q → q.definition = some d → inst.Among S d.body

theorem among_true (t : Term) : inst.Among (fun _ => True) t := fun _ _ _ _ => trivial

/-- A term over no predicates mentions none. -/
theorem among_false {t : Term} : inst.Among (fun _ => False) t ↔ ¬inst.Mentions t := by
  constructor
  · rintro h ⟨q, hq, hs⟩
    obtain ⟨p, hp⟩ := List.getElem?_of_mem hq
    exact h hp hs
  · exact fun h p q hq hs => h ⟨q, List.mem_of_getElem? hq, hs⟩

theorem closed_true (inst : Instance) : inst.Closed fun _ => True := fun _ _ _ _ _ _ => among_true _

theorem among_op {f : Op} {as : List Term} :
    inst.Among S (.op f as) ↔ ∀ a ∈ as, inst.Among S a := by
  unfold Among
  rw [Term.symbols, Term.symbolsList_eq_flatMap]
  simp only [List.mem_flatMap]
  constructor
  · exact fun h a ha p q hq hs => h hq ⟨a, ha, hs⟩
  · rintro h p q hq ⟨a, ha, hs⟩
    exact h a ha hq hs

theorem among_fn {f : Symbol} {as : List Term} :
    inst.Among S (.fn f as) ↔ (∀ ⦃p q⦄, inst.preds[p]? = some q → q.symbol = f → S p) ∧
      ∀ a ∈ as, inst.Among S a := by
  -- The arguments mention what any operator on them does.
  rw [← among_op (f := .and)]
  unfold Among
  rw [Term.symbols, Term.symbols]
  simp only [List.mem_cons]
  constructor
  · exact fun h => ⟨fun p q hq hs => h hq (.inl hs), fun p q hq hs => h hq (.inr hs)⟩
  · rintro ⟨hf, has⟩ p q hq (hs | hs)
    · exact hf hq hs
    · exact has hq hs

/-- What is put in for parameters may only mention predicates of the set. -/
theorem among_substitute {d : Definition} {ctx : List TermSort} {args : List Term}
    (hs : args.map Term.sort = d.params.map (·.sort)) (hw : ∀ a ∈ args, a.isWellSorted ctx = true)
    (hbody : d.body.isWellSorted [] = true) (hd : inst.Among S d.body)
    (hargs : ∀ a ∈ args, inst.Among S a) :
    inst.Among S (Term.substitute (d.params.zip args) d.body) := by
  intro p q hq hmem
  unfold Term.substitute at hmem
  rw [(Term.isSubstitutionIn_zip hs hw).mem_symbols_replace 0 _ d.body [] hbody] at hmem
  rcases hmem with ⟨hmem, -⟩ | ⟨x, a, ha, -, hmem⟩
  · exact hd hq hmem
  · exact hargs a (List.of_mem_zip (Term.mem_of_lookupLast ha)).2 hq hmem

/-! ### Terms that stand for others -/

/-- The term `u` may stand for `t` wherever the predicates of the set are as their definitions say,
whatever the bound variables around the two terms are. -/
structure StandsIn (inst : Instance) (S : Nat → Prop) (ctx : List TermSort) (t u : Term) :
    Prop where
  sort : u.sort = t.sort
  wellSorted : u.isWellSorted ctx = true
  among : inst.Among S u
  eval : ∀ {U : Universe} {M : Structure U} {env : List (Element U)}, M.ReadsOn inst.preds S →
    env.map (·.sort) = ctx → M.eval env u = M.eval env t

/-- The closed term `u` may stand for `t` wherever the predicates of the set are as their
definitions say. -/
structure Stands (inst : Instance) (S : Nat → Prop) (t u : Term) : Prop where
  sort : u.sort = t.sort
  wellSorted : u.isWellSorted [] = true
  among : inst.Among S u
  eval : ∀ {U : Universe} {M : Structure U}, M.ReadsOn inst.preds S → M.eval [] u = M.eval [] t

variable {ctx : List TermSort}

theorem StandsIn.closed {t u : Term} (h : inst.StandsIn S [] t u) : inst.Stands S t u :=
  ⟨h.sort, h.wellSorted, h.among, fun hM => h.eval hM rfl⟩

theorem StandsIn.refl {t : Term} (h : t.isWellSorted ctx = true) (ht : inst.Among S t) :
    inst.StandsIn S ctx t t := ⟨rfl, h, ht, fun _ _ => rfl⟩

theorem StandsIn.trans {t u v : Term} (h : inst.StandsIn S ctx t u)
    (h' : inst.StandsIn S ctx u v) : inst.StandsIn S ctx t v :=
  ⟨h'.sort.trans h.sort, h'.wellSorted, h'.among,
    fun hM henv => (h'.eval hM henv).trans (h.eval hM henv)⟩

section Lists

variable {as bs : List Term}

theorem sorts_of_standsIn (h : List.Forall₂ (inst.StandsIn S ctx) as bs) :
    bs.map Term.sort = as.map Term.sort := by
  induction h with
  | nil => rfl
  | cons h _ ih => rw [List.map_cons, List.map_cons, h.sort, ih]

theorem forall_of_standsIn (h : List.Forall₂ (inst.StandsIn S ctx) as bs) :
    ∀ b ∈ bs, b.isWellSorted ctx = true ∧ inst.Among S b := by
  induction h with
  | nil => exact List.forall_mem_nil _
  | cons h _ ih => exact List.forall_mem_cons.2 ⟨⟨h.wellSorted, h.among⟩, ih⟩

theorem evalList_of_standsIn {M : Structure U} {env : List (Element U)}
    (hM : M.ReadsOn inst.preds S) (henv : env.map (·.sort) = ctx)
    (h : List.Forall₂ (inst.StandsIn S ctx) as bs) : M.evalList env bs = M.evalList env as := by
  induction h with
  | nil => rfl
  | cons h _ ih => rw [Structure.evalList, Structure.evalList, h.eval hM henv, ih]

/-- The arguments of a function may be replaced. -/
theorem StandsIn.fn {f : Symbol} (hs : as.map Term.sort = f.domain)
    (hf : ∀ ⦃p q⦄, inst.preds[p]? = some q → q.symbol = f → S p)
    (h : List.Forall₂ (inst.StandsIn S ctx) as bs) :
    inst.StandsIn S ctx (.fn f as) (.fn f bs) := by
  have hall := forall_of_standsIn h
  refine ⟨rfl, ?_, ?_, fun hM henv => ?_⟩
  · exact Term.isWellSorted_fn ((sorts_of_standsIn h).trans hs) fun b hb => (hall b hb).1
  · rw [among_fn]
    exact ⟨hf, fun b hb => (hall b hb).2⟩
  · rw [Structure.eval, Structure.eval, evalList_of_standsIn hM henv h]

/-- The arguments of an operator may be replaced. -/
theorem StandsIn.op {f : Op} (hs : f.fits (as.map Term.sort) = true)
    (h : List.Forall₂ (inst.StandsIn S ctx) as bs) :
    inst.StandsIn S ctx (.op f as) (.op f bs) := by
  have hall := forall_of_standsIn h
  refine ⟨?_, ?_, ?_, fun hM henv => ?_⟩
  · rw [Term.sort, Term.sort, Term.sortHeads_eq_map, Term.sortHeads_eq_map, sorts_of_standsIn h]
  · rw [Term.isWellSorted, Bool.and_eq_true, Term.isWellSortedList_iff, sorts_of_standsIn h]
    exact ⟨hs, fun b hb => (hall b hb).1⟩
  · rw [among_op]
    exact fun b hb => (hall b hb).2
  · rw [Structure.eval, Structure.eval, evalList_of_standsIn hM henv h]

end Lists

/-- **One unfolding.** A definition with arguments in place of its parameters may stand for the
application. -/
theorem standsIn_apply (hS : inst.Closed S) {p : Nat} {q : Predicate} {d : Definition} (hp : S p)
    (hq : inst.preds[p]? = some q) (hd : q.definition = some d) (hfit : d.Fits q)
    {args : List Term} (hs : args.map Term.sort = q.sorts)
    (hw : ∀ a ∈ args, a.isWellSorted ctx = true) (hargs : ∀ a ∈ args, inst.Among S a) :
    inst.StandsIn S ctx (.fn q.symbol args) (Term.substitute (d.params.zip args) d.body) := by
  have hsorts : args.map Term.sort = d.params.map (·.sort) := hs.trans hfit.params.symm
  have hσ := Term.isSubstitutionIn_zip hsorts hw
  have hbool : d.body.sort = .bool := beq_iff_eq.1 hfit.body.isBool
  have hbody := hfit.body.wellSorted
  refine ⟨(hσ.sort_replace 0 d.body).trans hbool,
    hσ.isWellSorted_replace d.body [] (Term.isWellSorted_of_closed hbody ctx),
    among_substitute hsorts hw hbody (hS hp hq hd) hargs, fun {U M env} hM henv => ?_⟩
  -- The elements of the arguments are what the definition is about.
  rw [← henv] at hw
  have hfits : Fits q.sorts (args.map (M.eval env)) := (M.fits_eval_env env hw).trans hs
  have hsort := ((M.assign (d.params.zip (args.map (M.eval env)))).sort_eval d.body [] hbody).trans
    hbool
  rw [M.eval_substitute_zip_env env hsorts hw, Structure.eval_of_closed _ hbody,
    Element.eq_truth hsort, Structure.eval, Structure.evalList_eq_map]
  exact congrArg Element.truth (propext (hM hp hq hd hfits).symm)

/-! ### Expansion -/

mutual

/-- One level of expansion gives a term that stands for the given one, if unfolding does. -/
theorem exists_expandBy (hcall : callable.Reapplies)
    {unfold : Symbol → List Term → Option (Except Fault Term)}
    (hunfold : ∀ {f args r}, args.map Term.sort = f.domain →
      (∀ a ∈ args, a.isWellSorted ctx = true) → inst.Among S (.fn f args) →
      unfold f args = some r → ∃ u, r = .ok u ∧ inst.StandsIn S ctx (.fn f args) u) :
    ∀ t : Term, t.isWellSorted ctx = true → inst.Among S t →
      ∃ u, expandBy callable unfold t = .ok u ∧ inst.StandsIn S ctx t u
  | .lit _, hw, ht => ⟨_, rfl, .refl hw ht⟩
  | .bound _ _, hw, ht => ⟨_, rfl, .refl hw ht⟩
  | .fn f as, hw, ht => by
    rw [Term.isWellSorted, Bool.and_eq_true, beq_iff_eq] at hw
    obtain ⟨hf, has⟩ := among_fn.1 ht
    obtain ⟨bs, hbs, h⟩ := exists_expandListBy hcall hunfold as hw.2 has
    have hsorts : bs.map Term.sort = f.domain := (sorts_of_standsIn h).trans hw.1
    -- The arguments come first, and then the application of the symbol to what they became.
    have hfn := StandsIn.fn hw.1 hf h
    rw [expandBy, hbs]
    dsimp only
    cases hr : unfold f bs with
    | some r =>
      obtain ⟨u, rfl, hu⟩ :=
        hunfold hsorts (fun b hb => (forall_of_standsIn h b hb).1) hfn.among hr
      exact ⟨u, rfl, hfn.trans hu⟩
    | none => exact ⟨_, reapply_self hsorts, hfn⟩
  | .op f as, hw, ht => by
    rw [Term.isWellSorted, Bool.and_eq_true] at hw
    obtain ⟨bs, hbs, h⟩ := exists_expandListBy hcall hunfold as hw.2 (among_op.1 ht)
    have hsorts := sorts_of_standsIn h
    rw [expandBy, hbs]
    exact ⟨_, rebuild_of_fits hcall (hsorts ▸ hw.1) hsorts.symm, .op hw.1 h⟩
  | .quant _ _ _, hw, ht => ⟨_, rfl, .refl hw ht⟩

/-- One level of expansion gives terms that stand for those of a list. -/
theorem exists_expandListBy (hcall : callable.Reapplies)
    {unfold : Symbol → List Term → Option (Except Fault Term)}
    (hunfold : ∀ {f args r}, args.map Term.sort = f.domain →
      (∀ a ∈ args, a.isWellSorted ctx = true) → inst.Among S (.fn f args) →
      unfold f args = some r → ∃ u, r = .ok u ∧ inst.StandsIn S ctx (.fn f args) u) :
    ∀ as : List Term, Term.isWellSortedList ctx as = true → (∀ a ∈ as, inst.Among S a) →
      ∃ bs, expandListBy callable unfold as = .ok bs ∧ List.Forall₂ (inst.StandsIn S ctx) as bs
  | [], _, _ => ⟨[], rfl, .nil⟩
  | a :: as, hw, has => by
    rw [Term.isWellSortedList, Bool.and_eq_true] at hw
    rw [List.forall_mem_cons] at has
    obtain ⟨b, hb, h⟩ := exists_expandBy hcall hunfold a hw.1 has.1
    obtain ⟨bs, hbs, hs⟩ := exists_expandListBy hcall hunfold as hw.2 has.2
    exact ⟨b :: bs, by rw [expandListBy, hb, hbs], .cons h hs⟩

end

/-- What is to be unfolded is the definition of a predicate. -/
theorem unfoldable?_eq_some {stack : List Nat} {f : Symbol} {p : Nat} {d : Definition}
    (h : inst.unfoldable? stack f = some (p, d)) :
    ∃ q, inst.preds[p]? = some q ∧ q.definition = some d ∧ q.symbol = f := by
  unfold unfoldable? at h
  cases hf : inst.predOf? f with
  | none =>
    rw [hf] at h
    cases h
  | some p' =>
    rw [hf] at h
    dsimp only at h
    split at h
    · cases h
    -- The predicate is not being unfolded, so its definition is found if it has one.
    · obtain ⟨d', hd, hpd⟩ := Option.map_eq_some_iff.1 h
      cases hpd
      obtain ⟨q, hq, hqf⟩ := predOf?_eq_some hf
      rw [definition?, hq, Option.bind_some] at hd
      exact ⟨q, hq, hd, hqf⟩

/-- **Every well-sorted term is expanded, and its expansion may stand for it**, whatever is being
unfolded and however deep it goes. -/
theorem exists_expandFrom (hcall : callable.Reapplies) (hfit : inst.FittingDefinitions)
    (hS : inst.Closed S) (fuel : Nat) (stack : List Nat) {t : Term}
    (hw : t.isWellSorted ctx = true) (ht : inst.Among S t) :
    ∃ u, inst.expandFrom callable fuel stack t = .ok u ∧ inst.StandsIn S ctx t u := by
  induction fuel generalizing stack t with
  | zero => exact exists_expandBy hcall (fun _ _ _ h => by cases h) t hw ht
  | succ fuel ih =>
    refine exists_expandBy hcall (fun {f args r} hs hargs hf hr => ?_) t hw ht
    obtain ⟨⟨p, d⟩, hd, rfl⟩ := Option.map_eq_some_iff.1 hr
    obtain ⟨q, hq, hqd, rfl⟩ := unfoldable?_eq_some hd
    -- The definition stands for the application, and its expansion for the definition.
    have hqfit := hfit q (List.mem_of_getElem? hq) d hqd
    have hstands := standsIn_apply hS ((among_fn.1 hf).1 hq rfl) hq hqd hqfit hs hargs
      (among_fn.1 hf).2
    obtain ⟨u, hu, hstands'⟩ := ih (p :: stack) hstands.wellSorted hstands.among
    refine ⟨u, ?_, hstands.trans hstands'⟩
    dsimp only
    rw [Definition.apply_of_sorts (hs.trans hqfit.params.symm)]
    exact hu

/-- Every closed term is expanded, and its expansion may stand for it. -/
theorem exists_expand (hcall : callable.Reapplies) (hfit : inst.FittingDefinitions)
    (hS : inst.Closed S) {t : Term} (hw : t.isWellSorted [] = true) (ht : inst.Among S t) :
    ∃ u, inst.expand t callable = .ok u ∧ inst.Stands S t u := by
  obtain ⟨u, hu, hstands⟩ := exists_expandFrom hcall hfit hS inst.preds.length [] hw ht
  exact ⟨u, hu, hstands.closed⟩

/-- Where an expansion succeeds, it may stand for the term, whatever the engine refuses. -/
theorem stands_of_expand (hfit : inst.FittingDefinitions) (hS : inst.Closed S) {t u : Term}
    (hw : t.isWellSorted [] = true) (ht : inst.Among S t) (hu : inst.expand t callable = .ok u) :
    inst.Stands S t u := by
  obtain ⟨u', hu', hstands⟩ := exists_expand Callable.reapplies_any hfit hS hw ht
  rw [(expand_unlessRefused callable inst t).ok hu] at hu'
  cases hu'
  exact hstands

/-! ### Safe definitions -/

/-- Safe definitions only mention safe predicates. -/
theorem closed_safe (inst : Instance) : inst.Closed (· ∈ inst.safePredicates) := by
  obtain ⟨l, hl, hsafe⟩ := inst.exists_resolved_iff
  intro p q d hp hq hd r q' hr hs
  obtain ⟨d', hd', hrefs⟩ := hl.definition ((hsafe p).1 hp)
  rw [definition?, hq, Option.bind_some, hd, Option.some.injEq] at hd'
  rw [← hd'] at hrefs
  exact (hsafe r).2 (hrefs r (mem_predsIn.2 ⟨q', hr, hs⟩))


/-- Every structure can be changed, at the predicates only, so that the safe ones are as their
definitions say. -/
theorem exists_readsOn_safe (hn : DistinctNames inst.preds) (M : Structure U) :
    ∃ N : Structure U, Structure.Agree (fun f => ∀ q ∈ inst.preds, q.symbol ≠ f) N M ∧
      N.ReadsOn inst.preds (· ∈ inst.safePredicates) := by
  obtain ⟨l, hl, hsafe⟩ := inst.exists_resolved
  obtain ⟨N, hN, -, hdef⟩ := hl.exists_reads hn M (Interpretation.full inst.preds)
  exact ⟨N, hN, fun p q d es hp hq hd hes => hdef (hsafe p hp) hq hd hes⟩

/-! ### Applications of predicates -/

/-- No definition contains a quantifier. -/
def QuantifierFree (inst : Instance) : Prop :=
  ∀ q ∈ inst.preds, ∀ d ∈ q.definition, d.body.hasQuantifier = false

instance (inst : Instance) : Decidable inst.QuantifierFree :=
  inferInstanceAs (Decidable (∀ q ∈ inst.preds, ∀ d ∈ q.definition, d.body.hasQuantifier = false))

/-- An application of an undefined predicate to arguments without predicates is left as it is. -/
theorem expand_undefined (hcall : callable.Reapplies) (hn : DistinctNames inst.preds) {p : Nat}
    {q : Predicate}
    (hq : inst.preds[p]? = some q) (hd : q.definition = none) {args : List Term}
    (hs : args.map Term.sort = q.sorts) (hw : ∀ a ∈ args, a.isWellSorted [] = true)
    (hfree : ∀ a ∈ args, ¬inst.Mentions a) :
    inst.expand (.fn q.symbol args) callable = .ok (.fn q.symbol args) := by
  have hwell : (Term.fn q.symbol args).isWellSorted [] = true := Term.isWellSorted_fn hs hw
  refine expandFrom_eq_self (.of_isWellSorted hwell) (.of_isWellSorted hcall hwell)
    (fun f hf stack => ?_) _ _
  rw [Term.outer, Term.outerList_eq_flatMap, List.mem_cons, List.mem_flatMap] at hf
  rcases hf with rfl | ⟨a, ha, hf⟩
  · rw [unfoldable?, predOf?_symbol hn hq]
    dsimp only
    rw [definition?, hq, Option.bind_some, hd]
    exact ite_self none
  · exact Expanded.of_free (fun r hr hmem => hfree a ha ⟨r, hr, hmem⟩) f hf stack

/-- Where the definition mentions no predicate, the expansion is the definition with the arguments
in place of its parameters. -/
theorem expand_free (hcall : callable.Reapplies) (hn : DistinctNames inst.preds) {p : Nat}
    {q : Predicate} (hq : inst.preds[p]? = some q) {d : Definition} (hd : q.definition = some d)
    (hfit : d.Fits q) (hbody : ¬inst.Mentions d.body) {args : List Term}
    (hs : args.map Term.sort = q.sorts)
    (hw : ∀ a ∈ args, a.isWellSorted [] = true) (hargs : ∀ a ∈ args, ¬inst.Mentions a) :
    inst.expand (.fn q.symbol args) callable =
      .ok (Term.substitute (d.params.zip args) d.body) := by
  have hself : ∀ {t : Term}, ¬inst.Mentions t → inst.Expanded t := fun ht =>
    .of_free fun r hr hmem => ht ⟨r, hr, hmem⟩
  have hlist : inst.expandList callable args = .ok args := by
    clear hs
    induction args with
    | nil => rfl
    | cons a args ih =>
      rw [List.forall_mem_cons] at hw hargs
      have ha : inst.expand a callable = .ok a :=
        expandFrom_eq_self (.of_isWellSorted hw.1) (.of_isWellSorted hcall hw.1) (hself hargs.1) _ _
      rw [expandList_cons, ha, ih hw.2 hargs.2]
      rfl
  have hsorts : args.map Term.sort = d.params.map (·.sort) := hs.trans hfit.params.symm
  have hunfold : inst.unfoldable? [] q.symbol = some (p, d) := by
    rw [unfoldable?, predOf?_symbol hn hq]
    dsimp only
    rw [if_neg List.not_mem_nil, definition?, hq, Option.bind_some, hd]
    rfl
  -- Neither the body nor an argument mentions a predicate, so there is nothing more to unfold.
  have hfree : ¬inst.Mentions (Term.substitute (d.params.zip args) d.body) :=
    among_false.1 (among_substitute hsorts hw hfit.body.wellSorted (among_false.2 hbody)
      fun a ha => among_false.2 (hargs a ha))
  have hwell := Term.isWellSorted_replace (Term.isSubstitution_zip hsorts hw) hfit.body.wellSorted
  rw [expand_fn, hlist, ok_bind, hunfold]
  dsimp only
  rw [Definition.apply_of_sorts hsorts, ok_bind]
  exact expandFrom_eq_self (.of_isWellSorted hwell) (.of_isWellSorted hcall hwell) (hself hfree) _ _

/-- The application of a defined predicate to arguments without predicates is expanded to a formula
without predicates, which means the same. -/
theorem expand_defined (hcall : callable.Reapplies) (hn : DistinctNames inst.preds)
    (hsafe : inst.AllSafe) (hfit : inst.FittingDefinitions) (hquant : inst.QuantifierFree) {p : Nat}
    {q : Predicate} (hq : inst.preds[p]? = some q) {d : Definition} (hd : q.definition = some d)
    {args : List Term} (hs : args.map Term.sort = q.sorts)
    (hw : ∀ a ∈ args, a.isWellSorted [] = true) (hfree : ∀ a ∈ args, ¬inst.Mentions a) :
    ∃ u, inst.expand (.fn q.symbol args) callable = .ok u ∧ ¬inst.Mentions u ∧
      ∀ {U : Universe} {M : Structure U}, M.ReadsDefinitions inst.preds →
        (M.Sat u ↔ M.Rel q (args.map (M.eval []))) := by
  have hp : (inst.definition? p).isSome := by
    rw [definition?, hq, Option.bind_some, hd]
    rfl
  obtain ⟨u, hu, -, hmentions⟩ := expand_safe hcall hn hfit (hsafe p hp) hq hd hs hw hfree
  refine ⟨u, hu, ?_, fun {U M} hM => ?_⟩
  · -- Only what stands under a quantifier could have been retained.
    have hinner : ∀ q ∈ inst.preds, ∀ d ∈ q.definition, d.body.inner = [] := fun q hq d hd =>
      Term.inner_eq_nil (hquant q hq d hd)
    rw [hmentions]
    refine not_retains_of_inner (fun q hq d hd r _ => ?_) fun r _ => ?_
    · rw [hinner q hq d hd]
      exact List.not_mem_nil
    · rw [hinner q (List.mem_of_getElem? hq) d hd]
      exact List.not_mem_nil
  · have hwell : (Term.fn q.symbol args).isWellSorted [] = true := Term.isWellSorted_fn hs hw
    obtain ⟨u', hu', hstands⟩ := exists_expand hcall hfit (closed_true inst) hwell (among_true _)
    obtain rfl := Except.ok.inj (hu.symm.trans hu')
    rw [Structure.Sat, hstands.eval (hM.readsOn _)]
    exact M.sat_application q args

end Instance
end Horn
