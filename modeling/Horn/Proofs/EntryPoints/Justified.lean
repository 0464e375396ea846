import Horn.Proofs.EntryPoints.Trial
import Horn.Proofs.Oracle.Assertion
import Horn.Proofs.Semantics.Engine

/-!
# Recorded samples are facts

Every sample that a successful run of reconstruction returns is a fact of the working instance
(`Reconstruction.justified_of_results`): its predicate is positive, it has an argument for each
position of the original signature, none of them unknown, and the definition of the predicate is
true of those at the positions that have been kept (`Sample.Justified`).

The sample consists of the values that a model gives to the arguments of an application. The formula
of that application is the definition with the cast arguments in place of the parameters
(`Instance.expand_free`), and it is true in the model. The literals of the values denote what the
cast arguments do (`exists_mapM_toTerm`), so the definition is true of the literals as well
(`Reconstruction.fact_of_application`).
-/

namespace Horn

namespace Sample

/-- The definition of a predicate, with the values of a sample of its original signature in place of
the parameters. -/
def fact (q : Predicate) (d : Definition) (s : Sample) : Except Fault Term := do
  let reduced ← s.toReduced q
  d.apply (← (reduced.args.zip q.sorts).mapM fun a => a.1.toTerm a.2)

/-- The sample is a fact of the working instance: its predicate is defined without other predicates,
it has all arguments of the original signature, and the definition is true of those that have been
kept, whatever the values of constants are. -/
structure Justified (working : Instance) (s : Sample) (q : Predicate) (d : Definition) : Prop where
  positive : ∃ p ∈ working.positivePredicates, s.pred = (p : Int) ∧ working.preds[p]? = some q
  definition : q.definition = some d
  free : ¬working.Mentions d.body
  arity : s.args.length = q.originalSorts.length
  known : .unknown ∉ s.args
  holds : ∃ t, s.fact q d = .ok t ∧ ∃ (U : Universe) (M : Structure U), ∀ N : Structure U,
    Structure.Agree (fun f => f.domain ≠ []) N M → N.Sat t

end Sample

namespace Instance

/-- The constants of a definition are its parameters, unless they are predicates. -/
def OverParameters (inst : Instance) : Prop :=
  ∀ q ∈ inst.preds, ∀ d ∈ q.definition, ∀ f ∈ d.body.symbols, f.domain = [] →
    (∃ x ∈ d.params, x.symbol = f) ∨ ∃ r ∈ inst.preds, r.symbol = f

instance (inst : Instance) : Decidable inst.OverParameters :=
  inferInstanceAs (Decidable (∀ q ∈ inst.preds, ∀ d ∈ q.definition, ∀ f ∈ d.body.symbols,
    f.domain = [] → (∃ x ∈ d.params, x.symbol = f) ∨ ∃ r ∈ inst.preds, r.symbol = f))

end Instance

/-! ### The fact of a sample -/

section Fact

variable {U : Universe} {M : Structure U} {m : Model}

/-- The values of some arguments become literals that denote what the casts of the arguments do. -/
theorem exists_mapM_toTerm {sorts : List TermSort} {args bs : List Term} {values : List Value}
    (hm : ∀ {t : Term} {l : Literal}, t.isWellSorted [] = true → m.eval t = .lit l →
      M.eval [] t = l.denote)
    (hw : ∀ t ∈ args, t.isWellSorted [] = true)
    (hvalues : List.Forall₂ (fun a v => Value.ofTerm (m.eval a) = .ok v) args values)
    (hbs : Term.castAll? sorts args = some bs) :
    ∃ ls, ((values.zip sorts).mapM fun a => a.1.toTerm a.2) = .ok ls ∧
      ls.map Term.sort = sorts ∧ ls.map (M.eval []) = bs.map (M.eval []) ∧
      ∀ l ∈ ls, l.symbols = [] ∧ l.isWellSorted [] = true := by
  fun_induction Term.castAll? sorts args generalizing bs values with
  | case1 =>
    obtain rfl := List.forall₂_nil_left_iff.1 hvalues
    obtain rfl := Option.some.inj hbs
    exact ⟨[], rfl, rfl, rfl, List.forall_mem_nil _⟩
  | case2 s ss t ts ih =>
    rw [List.forall_mem_cons] at hw
    obtain ⟨v, vs, hv, hvs, rfl⟩ := List.forall₂_cons_left_iff.1 hvalues
    obtain ⟨b, hb, hbs⟩ := Option.bind_eq_some_iff.1 hbs
    obtain ⟨bs', hbs', hbs⟩ := Option.bind_eq_some_iff.1 hbs
    obtain rfl := Option.some.inj hbs
    obtain ⟨ls, hls, hsorts, hevals, hall⟩ := ih hw.2 hvs hbs'
    -- The model gives a literal, and its value follows the cast.
    obtain ⟨l, hl⟩ := Value.exists_lit_of_ofTerm hv
    rw [hl] at hv
    obtain ⟨l', hl', hsort, hdenote⟩ := Value.toTerm_of_cast hv (hm hw.1 hl) hw.1 hb
    refine ⟨.lit l' :: ls, ?_, ?_, ?_, List.forall_mem_cons.2 ⟨⟨rfl, rfl⟩, hall⟩⟩
    · rw [List.zip_cons_cons, List.mapM_cons, hl', hls]
      rfl
    · rw [List.map_cons, hsorts]
      exact congrArg (· :: ss) hsort
    · rw [List.map_cons, List.map_cons, hevals, Structure.eval, hdenote]
  | case3 => cases hbs

/-- Projected arguments and projected values correspond as all of them do. -/
theorem forall₂_project {α β : Type} {R : α → β → Prop} {as : List α} {bs : List β}
    (h : List.Forall₂ R as bs) (a : α) (b : β) (positions : List Nat)
    (hlt : ∀ i ∈ positions, i < as.length) :
    List.Forall₂ R (positions.map fun i => (as[i]?).getD a)
      (positions.map fun i => (bs[i]?).getD b) := by
  rw [List.forall₂_map_left_iff, List.forall₂_map_right_iff, List.forall₂_same]
  intro i hi
  have has := hlt i hi
  have hbs : i < bs.length := h.length_eq ▸ has
  rw [List.getElem?_eq_getElem has, List.getElem?_eq_getElem hbs]
  exact h.get has hbs

/-- With literals for its parameters, a definition that mentions no predicate has no constants. -/
theorem domain_ne_nil_of_instantiated {working : Instance} (hover : working.OverParameters)
    {q : Predicate} {d : Definition} (hq : q ∈ working.preds) (hd : q.definition = some d)
    (hbody : ¬working.Mentions d.body) {ls : List Term}
    (hparams : ls.map Term.sort = d.params.map (·.sort))
    (hall : ∀ l ∈ ls, l.symbols = [] ∧ l.isWellSorted [] = true)
    (hwell : d.body.isWellSorted [] = true) :
    ∀ f ∈ (Term.substitute (d.params.zip ls) d.body).symbols, f.domain ≠ [] := by
  intro f hf hdomain
  unfold Term.substitute at hf
  rw [Term.mem_symbols_replace (Term.isSubstitution_zip hparams fun l hl => (hall l hl).2) 0 _
    d.body [] hwell] at hf
  rcases hf with ⟨hf, hnone⟩ | ⟨x, a, ha, -, hf⟩
  · rcases hover q hq d hd f hf hdomain with ⟨x, hx, rfl⟩ | ⟨r, hr, rfl⟩
    · -- A parameter is among those that are replaced.
      have hlength : d.params.length ≤ ls.length := by
        rw [← List.length_map (·.sort), ← hparams, List.length_map]
      have hzip := Term.lookupLast_eq_none.1 (hnone x rfl)
      rw [List.map_fst_zip hlength] at hzip
      exact hzip hx
    · exact hbody ⟨r, hr, hf⟩
  · rw [(hall a (List.of_mem_zip (Term.mem_of_lookupLast ha)).2).1] at hf
    cases hf

end Fact

namespace Reconstruction

variable {original working : Instance} {U : Universe} {M : Structure U} {m : Model}

/-- **The fact of a recorded sample is true** where the formula of its application is, if the values
of the sample are those of the arguments. -/
theorem fact_of_application (h : Compatible original working) (hover : working.OverParameters)
    {p : Nat} {q : Predicate} {d : Definition} (hq : working.preds[p]? = some q)
    (hd : q.definition = some d) (hbody : ¬working.Mentions d.body) (hproj : q.IsProjection)
    {args : List Term} (hw : ∀ t ∈ args, t.isWellSorted [] = true)
    (hfree : ∀ t ∈ args, ¬working.Mentions t)
    (hm : ∀ {t : Term} {l : Literal}, t.isWellSorted [] = true → m.eval t = .lit l →
      M.eval [] t = l.denote) {values : List Value}
    (hvalues : List.Forall₂ (fun a v => Value.ofTerm (m.eval a) = .ok v) args values)
    {callable : Callable} {name : String} {u : Term}
    (hu : Session.resolveApp callable name working p args true = .ok u) (hsat : M.Sat u) :
    values.length = q.originalSorts.length ∧ ∃ t, Sample.fact q d ⟨p, values⟩ = .ok t ∧
      M.Sat t ∧ ∀ f ∈ t.symbols, f.domain ≠ [] := by
  obtain ⟨q', bs, hq', hlength, hbs, hu⟩ := resolveApp_ok hu
  obtain rfl := Option.some.inj (hq.symm.trans hq')
  have hfit := h.definitions q (List.mem_of_getElem? hq) d hd
  obtain ⟨hsorts, hwell, hfree'⟩ := projected_spec hbs hw hfree
  -- The formula is the definition with the cast arguments, for any engine that gives one.
  have hany := (working.expand_unlessRefused callable _).ok hu
  obtain rfl := Except.ok.inj (hany.symm.trans (Instance.expand_free Callable.reapplies_any
    h.names hq hd hfit hbody hsorts hwell hfree'))
  have hvlength : values.length = q.originalSorts.length := hvalues.length_eq ▸ hlength
  have hprojected := forall₂_project hvalues Term.verum Value.unknown q.positions fun i hi =>
    hlength ▸ hproj.lt i hi
  have hargs : ∀ t ∈ q.positions.map (fun i => (args[i]?).getD .verum),
      t.isWellSorted [] = true := by
    intro t ht
    obtain ⟨i, hi, rfl⟩ := List.mem_map.1 ht
    rw [List.getElem?_eq_getElem (hlength ▸ hproj.lt i hi)]
    exact hw _ (List.getElem_mem _)
  obtain ⟨ls, hls, hlsorts, hevals, hall⟩ := exists_mapM_toTerm hm hargs hprojected hbs
  have hparams : ls.map Term.sort = d.params.map (·.sort) := hlsorts.trans hfit.params.symm
  have hlwell : ∀ l ∈ ls, l.isWellSorted [] = true := fun l hl => (hall l hl).2
  refine ⟨hvlength, Term.substitute (d.params.zip ls) d.body, ?_, ?_,
    domain_ne_nil_of_instantiated hover (List.mem_of_getElem? hq) hd hbody hparams hall
      hfit.body.wellSorted⟩
  · unfold Sample.fact Sample.toReduced
    rw [if_pos hvlength]
    change ((_ : Except Fault (List Term)).bind d.apply) = _
    rw [hls, ok_bind, Definition.apply_of_sorts hparams]
  · -- The parameters get the same elements in both cases.
    rw [Structure.Sat, Structure.eval_substitute_zip M hparams hlwell, hevals,
      ← Structure.eval_substitute_zip M (hsorts.trans hfit.params.symm) hwell]
    exact hsat

/-- A positive predicate is defined by a formula that mentions no predicate. -/
theorem mem_positivePredicates {p : Nat} : p ∈ working.positivePredicates ↔
    ∃ q d, working.preds[p]? = some q ∧ q.definition = some d ∧ ¬working.Mentions d.body := by
  rw [Instance.mem_positivePredicates, Instance.mentions?, Instance.definition?,
    Option.map_eq_some_iff]
  constructor
  · rintro ⟨d, hd, hfree⟩
    obtain ⟨q, hq, hqd⟩ := Option.bind_eq_some_iff.1 hd
    exact ⟨q, d, hq, hqd, fun hbody => Instance.mentions_iff.1 hbody hfree⟩
  · rintro ⟨q, d, hq, hd, hfree⟩
    refine ⟨d, by rw [hq, Option.bind_some, hd], ?_⟩
    exact not_not.1 fun hne => hfree (Instance.mentions_iff.2 hne)

/-- A sample that a run returns has been found in the trial of a clause whose predicates on the left
are all safe. -/
theorem exists_tried_of_results {engine : Engine} {session : Session} {samples : List Sample}
    {m : SampleSet} (hrun : results engine original working session samples = .ok m) {s : Sample}
    (hs : s ∈ m) :
    ∃ r, r.IsOpen original working session.assertions ∧ ∃ sample found, s ∈ found ∧
      ∃ c ∈ r.original.clauses, (∀ u ∈ c.usedPreds, u ∈ r.safe) ∧
        tried engine r sample.pred sample c.index = .ok (some found) := by
  obtain ⟨r, hr, founds, hfounds, rfl⟩ := results_ok_iff.1 hrun
  obtain ⟨-, -, hopened⟩ := bind_eq_ok.1 hr
  have hflat : s ∈ founds.flatten := (SampleSet.mem_union hs).resolve_left List.not_mem_nil
  obtain ⟨found, hfound, hs⟩ := List.mem_flatten.1 hflat
  obtain ⟨sample, -, hrecovered⟩ := (exists_of_forall₂ (mapM_eq_ok.1 hfounds)).2 found hfound
  exact ⟨r, isOpen_of_opened hopened, sample, found, hs, exists_tried_of_recovered hrecovered⟩

/-- **Recorded samples are facts.** Every sample that a successful run returns is about a positive
predicate, and it is true by the definition of that predicate. The models of the engine have to be
models. -/
theorem justified_of_results {engine : Engine} (he : engine.Evaluates)
    (h : Compatible original working) (hproj : ∀ q ∈ working.preds, q.IsProjection)
    (hover : working.OverParameters) {session : Session}
    (hformulas : ∀ t ∈ session.assertions, t.IsFormula) {samples : List Sample} {found : SampleSet}
    (hrun : results engine original working session samples = .ok found) :
    ∀ s ∈ found, ∃ q d, s.Justified working q d := by
  intro s hs
  obtain ⟨r, hopen, sample, found, hs, c, hc, hsafe, htried⟩ := exists_tried_of_results hrun hs
  have hindexed : r.original.Indexed := hopen.original ▸ h.indexed
  obtain ⟨p, args, ts, hconclusion, hts, hanswer⟩ := tried_ok hindexed hc htried
  rw [hopen.original] at hc
  rw [hopen.safe] at hsafe
  obtain ⟨m, hcheck, hevaluated⟩ := sat_of_answer hanswer
  obtain ⟨a, ha, hpositive, hpred, hvalues⟩ := (mem_evaluated hevaluated s).1 hs
  have hused : a.1 ∈ c.usedPreds := Clause.mem_usedPreds ha
  -- The model is one of what the query has asserted.
  have hwritten := hopen.written hsafe
  have hformulas' := isFormula_of_constraints h hc hsafe hwritten hconclusion hts
  rw [hopen.assertions] at hcheck
  obtain ⟨U, M, hsat, hm⟩ := he.sat
    (fun t ht => (List.mem_append.1 ht).elim (hformulas t) (hformulas' t)) hcheck
  -- Among that is the formula of the application.
  obtain ⟨vs, hvs, hsub⟩ := exists_application_of_constraints hts ha
  obtain ⟨inst, u, hdefinitions, hresolve, -, rfl⟩ := application_ok hvs
  obtain rfl := Option.some.inj
    (hdefinitions.symm.trans (hwritten (List.ne_nil_of_mem hused)))
  have hu : M.Sat u := hsat u (List.mem_append_right _ (hsub (List.mem_singleton_self u)))
  rw [hopen.positive] at hpositive
  obtain ⟨q, d, hq, hd, hbody⟩ := mem_positivePredicates.1 hpositive
  obtain ⟨harity, t, ht, htsat, hground⟩ := fact_of_application h hover hq hd hbody
    (hproj q (List.mem_of_getElem? hq))
    (fun t ht => h.wellSorted c hc t (Clause.mem_parts_of_app ha ht))
    (fun t ht => h.free c hc t (Clause.mem_parts_of_app ha ht)) hm hvalues hresolve hu
  obtain ⟨pred, values⟩ := s
  obtain rfl : pred = (a.1 : Int) := hpred
  refine ⟨q, d, ⟨a.1, hpositive, rfl, hq⟩, hd, hbody, harity, fun hunknown => ?_, t, ht, U, M,
    fun N hN => ?_⟩
  · -- No value is taken from a term that has none.
    obtain ⟨arg, -, hv⟩ := (exists_of_forall₂ hvalues).2 _ hunknown
    obtain ⟨l, hl⟩ := Value.exists_lit_of_ofTerm hv
    rw [hl] at hv
    cases Value.is_of_ofTerm (U := U) hv
  · exact (Structure.sat_congr (hN.mono hground)).2 htsat

/-- The predicates `A(b, x)` and `C(x)` with the clause `A(true, x) → C(x)`. -/
def guarded : Instance where
  name := "guarded"
  preds := [⟨"A", [.bool, .int], [.bool, .int], [0, 1], none⟩, ⟨"C", [.int], [.int], [0], none⟩]
  clauses := [⟨0, [⟨"x", .int⟩], [], [⟨0, [[.verum, .const ⟨"x", .int⟩]]⟩],
    some (1, [.const ⟨"x", .int⟩]), false, true⟩]
  users := [[0], []]
  producers := [[], [0]]
  holders := 0
  expansions := []

/-- The same predicates with the definition `A(b, x) := x ≠ 0`; the first argument of `A` is gone.
-/
def guard : Instance where
  name := "guard"
  preds := [
    ⟨"A", [.int], [.bool, .int], [1],
      some ⟨[⟨"A!0", .int⟩], .neg (.op .eq [.const ⟨"A!0", .int⟩, .int 0])⟩⟩,
    ⟨"C", [.int], [.int], [0], none⟩]
  clauses := []
  users := [[], []]
  producers := [[], []]
  holders := 0
  expansions := []

/-- The engine that knows a model of `x ≠ 0` and `x = 3`, and nothing else. -/
def knowing : Engine where
  simplify t := t
  check ts :=
    if ts = [.neg (.op .eq [.const ⟨"x", .int⟩, .int 0]), .op .eq [.const ⟨"x", .int⟩, .int 3]] then
      .sat ⟨fun t => if t = .const ⟨"x", .int⟩ then .int 3 else t⟩
    else .unknown

theorem evaluates_knowing : knowing.Evaluates := by
  constructor
  intro ts m _ hcheck
  unfold knowing at hcheck
  dsimp only at hcheck
  split at hcheck
  · next hts =>
    obtain rfl := Verdict.sat.inj hcheck
    have hx : (⟨.int, (3 : ℤ)⟩ : Element default).sort = TermSort.int := rfl
    refine ⟨default, (default : Structure default).assign [(⟨"x", .int⟩, ⟨.int, (3 : ℤ)⟩)], ?_, ?_⟩
    -- With `x = 3` both formulas hold.
    · rw [hts, List.forall_mem_cons, List.forall_mem_singleton, Structure.sat_neg,
        Structure.sat_eq_int _ hx, Structure.sat_eq_int _ hx, Element.int_inj, Element.int_inj]
      decide
    -- Of all terms the model only knows `x`, and says 3; a literal has its own value anyway.
    · intro t l _ hl
      dsimp only at hl
      split at hl
      · next ht =>
        rw [ht, Structure.eval_assign_const _ hx, ← Term.lit.inj hl]
        rfl
      · rw [hl]
        rfl
  · cases hcheck

/-- From `C(3)` the fact `A(true, 3)` is recorded. -/
theorem justified_guarded :
    results knowing guarded guard (Session.create "session" none) [⟨1, [.int 3]⟩] =
      .ok [⟨0, [.bool true, .int 3]⟩] ∧
    ∃ q d, Sample.Justified guard ⟨0, [.bool true, .int 3]⟩ q d := by
  have hrun : results knowing guarded guard (Session.create "session" none) [⟨1, [.int 3]⟩] =
      .ok [⟨0, [.bool true, .int 3]⟩] := rfl
  exact ⟨hrun, justified_of_results evaluates_knowing (by decide) (by decide) (by decide)
    (List.forall_mem_nil _) hrun _ (List.mem_singleton_self _)⟩

end Reconstruction

end Horn
