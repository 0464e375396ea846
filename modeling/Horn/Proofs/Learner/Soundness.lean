import Horn.Proofs.Candidates
import Horn.Proofs.Learner.Error

/-!
# Rules are sound relative to what is known

What is known about a predicate is the conjunction of fragments over its formal parameters. It gives
an interpretation (`Accumulator.interpretation`), and what the rules state of it at the arguments of
an application is as true as that interpretation says (`RuleSystem.sat_knownAt_iff`).

What is known only occurs on the left of a rule. So a solution of the rules is a model relative to
what is known. In conjunction with what is known it is a model, provided that what is known is
inductive by itself and satisfies the clauses that conclude an undefined predicate
(`RuleSystem.meet_satisfies`). Clauses without conclusion, and those that conclude a defined
predicate, need not be satisfied by what is known: the rules see to them.

All this is about instances that keep the error apart. The rule of a clause with a free constant of
that name is true for nothing but the name (`RuleSystem.ofInstance_blind`).
-/

namespace Horn

variable {U : Universe}

/-! ### What is known as an interpretation -/

namespace Structure

/-- Assigning elements to constants gives them the same value in all structures. -/
theorem symbol_assign_congr (M N : Structure U) {σ : List (Constant × Element U)} {f : Symbol}
    (hf : ∃ e ∈ σ, e.1.symbol = f) : (M.assign σ).symbol f [] = (N.assign σ).symbol f [] := by
  obtain ⟨e, he, hef⟩ := hf
  have hsome : (σ.reverse.find? (·.1.symbol == f)).isSome := by
    rw [List.find?_isSome]
    exact ⟨e, List.mem_reverse.2 he, beq_iff_eq.2 hef⟩
  obtain ⟨v, hv⟩ := Option.isSome_iff_exists.1 hsome
  simp only [assign, hv]

end Structure

namespace Accumulator

variable {preds : List Predicate}

/-- The fragments are formulas over the formal parameters of their predicates. They may apply
functions, but no predicates. -/
def OverParams (m : Accumulator) (preds : List Predicate) : Prop :=
  ∀ {p : Nat} {q : Predicate}, preds[p]? = some q → ∀ t ∈ m.reading p, t.IsFormula ∧
    ∀ f ∈ t.symbols, f ∈ q.params.map (·.symbol) ∨
      (f.domain ≠ [] ∧ ∀ r ∈ preds, r.symbol ≠ f)

/-- Fragments over formal parameters do not depend on any other constant, nor on the predicates. -/
theorem OverParams.sat_congr {m : Accumulator} (h : m.OverParams preds) {M N : Structure U}
    (hMN : M.SameFunctions preds N) {p : Nat} {q : Predicate} (hq : preds[p]? = some q) {t : Term}
    (ht : t ∈ m.reading p) {es : List (Element U)} (hes : Fits q.sorts es) :
    (M.assign (q.params.zip es)).Sat t ↔ (N.assign (q.params.zip es)).Sat t := by
  obtain ⟨hform, hsymbols⟩ := h hq t ht
  have hlength : q.params.length = es.length := by
    rw [← List.length_map (·.sort), Predicate.sorts_params, ← hes, List.length_map]
  have hagree : Structure.AgreeOnFitting (· ∈ t.symbols) (M.assign (q.params.zip es))
      (N.assign (q.params.zip es)) := by
    refine ⟨fun f hf as has => ?_, hMN.unspecified⟩
    rcases hsymbols f hf with hparam | hfunction
    · -- A formal parameter has no arguments, and its value is given.
      obtain ⟨x, hx, rfl⟩ := List.mem_map.1 hparam
      obtain rfl : as = [] := List.map_eq_nil_iff.1 has
      refine M.symbol_assign_congr N ?_
      rw [← List.map_fst_zip hlength.le] at hx
      obtain ⟨e, he, rfl⟩ := List.mem_map.1 hx
      exact ⟨e, he, rfl⟩
    · exact congrFun ((hMN.assign _).symbol f hfunction) as
  unfold Structure.Sat
  rw [Structure.eval_congr_of_fitting t [] hagree hform.wellSorted]

/-- What the fragments say of the predicates, as an interpretation. -/
def interpretation (m : Accumulator) (preds : List Predicate) (h : m.OverParams preds) :
    Interpretation preds where
  rel M p es := ∃ q, preds[p]? = some q ∧ Fits q.sorts es ∧
    ∀ t ∈ m.reading p, (M.assign (q.params.zip es)).Sat t
  congr M N hMN := by
    funext p es
    refine propext (exists_congr fun q => and_congr_right fun hq => and_congr_right fun hes => ?_)
    exact forall₂_congr fun t ht => h.sat_congr hMN hq ht hes

/-- A predicate holds of what satisfies all its fragments. -/
theorem conjoins_interpretation {m : Accumulator} (h : m.OverParams preds) :
    (m.interpretation preds h).Conjoins m.reading := by
  intro U M p q es hq _ hes
  constructor
  · rintro ⟨q', hq', -, hall⟩
    obtain rfl := Option.some.inj (hq.symm.trans hq')
    exact hall
  · exact fun hall => ⟨q, hq, hes, hall⟩

/-- The conjunction of fragments is true if all of them are. -/
theorem sat_conjoin (M : Structure U) (fs : List Term) :
    M.Sat (conjoin fs) ↔ ∀ t ∈ fs, M.Sat t := by
  unfold conjoin
  split
  · exact iff_of_true (M.sat_of_isVerum rfl) (List.forall_mem_nil _)
  · rw [List.forall_mem_singleton]
  · exact M.sat_and _

/-- A predicate without an entry has no fragments. -/
theorem fragments_of_not_has {m : Accumulator} {p : Int} (h : m.has p = false) :
    m.fragments p = [] := by
  have hfind : m.find? (·.1 == p) = none :=
    List.find?_eq_none.2 fun e he => List.any_eq_false.1 h e he
  rw [fragments, hfind]
  rfl

end Accumulator

namespace RuleSystem

variable {callable : Callable} {inst : Instance} {background : Accumulator}

/-- Of a defined predicate nothing is known, and nothing is stated. -/
theorem knownAt_of_defined (hentries : ∀ e ∈ background, ¬inst.IsDefined e.1)
    {a : Nat × List Term} {q : Predicate} (hq : inst.preds[a.1]? = some q)
    (hd : q.definition ≠ none) : knownAt inst background a = .ok [] := by
  have hhas : background.has a.1 = false := by
    rw [Accumulator.has, List.any_eq_false]
    intro e he hea
    exact hentries e he ⟨a.1, q, beq_iff_eq.1 hea, hq, hd⟩
  rw [knownAt_eq hq fun h => absurd (hhas.symm.trans h) Bool.false_ne_true, hhas]
  rfl

/-- What is stated at the arguments of an undefined predicate is true if the interpretation of what
is known holds of them. -/
theorem sat_knownAt_iff {B : Interpretation inst.preds} (hB : B.Conjoins background.reading)
    {M : Structure U} {a : Nat × List Term} {q : Predicate} {args known : List Term}
    (hq : inst.preds[a.1]? = some q) (hd : q.definition = none)
    (hargs : Term.castAll? q.sorts a.2 = some args) (hw : ∀ t ∈ args, t.isWellSorted [] = true)
    (hknown : knownAt inst background a = .ok known) :
    (∀ t ∈ known, M.Sat t) ↔ B.rel M a.1 (args.map (M.eval [])) := by
  have hfit : Fits q.sorts (args.map (M.eval [])) :=
    (M.fits_eval hw).trans (Term.castAll?_spec hargs).1
  rw [hB M hq hd hfit]
  cases hhas : background.has a.1 with
  | false =>
    rw [knownAt_eq hq fun h => absurd (hhas.symm.trans h) Bool.false_ne_true, hhas] at hknown
    cases hknown
    rw [Accumulator.reading, Accumulator.fragments_of_not_has hhas]
    exact iff_of_true (List.forall_mem_nil _) (List.forall_mem_nil _)
  | true =>
    have hsorts := sorts_of_knownAt hq hargs hhas hknown
    rw [knownAt_eq hq fun _ => hsorts, hhas] at hknown
    cases hknown
    -- The arguments are taken as they stand.
    rw [Term.castAll?_of_sorts hsorts] at hargs
    cases hargs
    rw [if_pos rfl, List.forall_mem_singleton, Structure.Sat,
      M.eval_substitute_zip (hsorts.trans q.sorts_params.symm) hw]
    exact Accumulator.sat_conjoin _ _

/-! ### Soundness -/

/-- The clause concludes an undefined predicate. -/
def ConcludesUndefined (inst : Instance) (c : Clause) : Prop :=
  ∃ a ∈ c.conclusion, ∃ q, inst.preds[a.1]? = some q ∧ q.definition = none

section

variable (h : inst.Expressible) (hentries : ∀ e ∈ background, ¬inst.IsDefined e.1)
  {B : Interpretation inst.preds} (hB : B.Conjoins background.reading)
  {C : Interpretation inst.preds} {c : Clause} (hc : c ∈ inst.clauses)

include h hentries hB hc

/-- What is known holds where the left side of a clause does: what is known is a part of what the
structure reads. -/
theorem known_obeying {M K : Structure U} (hM : M.Reads (C.meet B))
    (hK : (M.obeying C).Completes K C) (hbody : M.Body inst.preds c) :
    Known inst background c K := by
  intro a ha known hknown
  obtain ⟨q, args, hq, hargs, hw⟩ := ((h.wellFormed.clauses c hc).apps a ha).exists_args
  -- Of a predicate with a definition nothing is known.
  cases hd : q.definition with
  | some d =>
    rw [knownAt_of_defined hentries hq (hd ▸ Option.some_ne_none d)] at hknown
    cases hknown
    exact List.forall_mem_nil _
  | none =>
    have hfit : Fits q.sorts (args.map (M.eval [])) :=
      (M.fits_eval hw).trans (Term.castAll?_spec hargs).1
    -- The application holds in the conjunction, so it holds in what is known alone.
    have hrel := (hM.applies_iff hq hd hargs hfit).1 (hbody.apps a ha)
    have hplain := h.args_plain hc (fun t ht => Clause.mem_parts_of_app ha ht) hargs
    have hargsK : args.map (K.eval []) = args.map (M.eval []) :=
      (List.map_congr_left fun t ht => hK.eval_eq fun r hr hmem => hplain t ht ⟨r, hr, hmem⟩).trans
        (Structure.args_obeying (fun t ht => h.avoids hc t (Clause.mem_parts_of_app ha ht)) hargs)
    have hfun : M.SameFunctions inst.preds K :=
      (Structure.sameFunctions_obeying M C).trans (hK.agree.mono fun _ hf => hf.2)
    rw [sat_knownAt_iff hB hq hd hargs hw hknown, hargsK, ← B.congr M K hfun]
    exact (Interpretation.rel_meet.1 hrel).2

/-- The conjunction of a solution and what is known satisfies a clause, if what is known satisfies
it in case it concludes an undefined predicate. -/
theorem meet_satisfies (hapart : inst.ErrorApart) {sys : RuleSystem}
    (hsys : ofInstance callable inst background = .ok sys) (hC : C.Solves sys)
    (hind : ConcludesUndefined inst c → B.Satisfies c) : (C.meet B).Satisfies c := by
  have hn := h.wellFormed.names
  have hclosed := h.safe.closed
  have havoid := h.avoids hc
  have hleC : (C.meet B).Le C := fun M _ _ _ _ _ _ hrel => (Interpretation.rel_meet.1 hrel).1
  have hleB : (C.meet B).Le B := fun M _ _ _ _ _ _ hrel => (Interpretation.rel_meet.1 hrel).2
  have hfalse : C.Falsifies errorRelation := (ofInstance_ok hsys).2.1 ▸ hC.error
  refine hapart.satisfies hc fun U M hM herror hbody => ?_
  have hNC := Structure.reads_obeying hn hclosed hM C
  have hNB := Structure.reads_obeying hn hclosed hM B
  -- A constant that is false stays false.
  have herrorC : (∃ q ∈ inst.preds, q.symbol = errorRelation) ∨ ¬(M.obeying C).Sat errorHead := by
    by_cases hpred : ∃ q ∈ inst.preds, q.symbol = errorRelation
    · exact .inl hpred
    · refine .inr fun hsat => herror.resolve_left hpred ((Structure.sat_congr ?_).1 hsat)
      refine (Structure.agree_obeying M C).mono fun f hf hu => ?_
      obtain ⟨q, hq, -, hqf⟩ := hu
      obtain rfl : f = errorRelation := List.mem_singleton.1 hf
      exact hpred ⟨q, hq, hqf⟩
  -- The structure is made to read the solution, for which the rules speak while the error is false.
  obtain ⟨K, hK, hKfalse⟩ := exists_completes_excluding hfalse hNC herrorC
  have hconclusion : ∃ a ∈ c.conclusion, (M.obeying C).Applies inst.preds a :=
    satClause_of_solves h hsys hC hc hK hKfalse (known_obeying h hentries hB hc hM hK hbody)
      (Structure.body_obeying hn hM hleC havoid hbody)
  obtain ⟨a, ha, happ⟩ := hconclusion
  obtain ⟨q, args, hq, hargs, hw⟩ := ((h.wellFormed.clauses c hc).conclusion a ha).exists_args
  cases hd : q.definition with
  | some d =>
    -- A defined predicate is the same for all interpretations.
    exact ⟨a, ha, Structure.applies_obeying_of_defined hn hq hd
      (fun t ht => havoid t (Clause.mem_parts_of_conclusion ha ht)) happ⟩
  | none =>
    -- Here the rule says nothing of what is known, which has to satisfy the clause by itself.
    have hconclusionB : ∃ a ∈ c.conclusion, (M.obeying B).Applies inst.preds a :=
      hind ⟨a, ha, q, hq, hd⟩ U _ hNB (Structure.body_obeying hn hM hleB havoid hbody)
    refine Interpretation.conclusion_of_obeying hn hM havoid fun b => ?_
    cases b with
    | false => exact hconclusionB
    | true => exact ⟨a, ha, happ⟩

end

/-- **Rules are sound relative to what is known.** Let the instance keep the error apart, let what
is known be about undefined predicates, and let it satisfy the clauses that conclude one. Then every
solution of the rules, in conjunction with what is known, satisfies all clauses. There are rules, if
what is known can be stated at all applications and these can be built anew. -/
theorem ofInstance_sound (h : inst.Expressible) (hapart : inst.ErrorApart)
    (hentries : ∀ e ∈ background, ¬inst.IsDefined e.1) (hover : background.OverParams inst.preds)
    (hind : ∀ c ∈ inst.clauses, ConcludesUndefined inst c →
      (background.interpretation inst.preds hover).Satisfies c) (callable : Callable) :
    (callable.Reapplies → Exact inst background →
        ∃ sys, ofInstance callable inst background = .ok sys) ∧
      ∀ {sys}, ofInstance callable inst background = .ok sys → ∀ C : Interpretation inst.preds,
        C.Solves sys → ∀ c ∈ inst.clauses,
          (C.meet (background.interpretation inst.preds hover)).Satisfies c := by
  refine ⟨fun hcall => exists_ofInstance hcall h, fun hsys C hC c hc => ?_⟩
  exact meet_satisfies h hentries (Accumulator.conjoins_interpretation hover) hc hapart hsys hC
    (hind c hc)

/-! ### A solution that needs what is known -/

/-- The predicates `D`, which is defined by `D!0 = 1`, and `P`, with the clauses `D(x) → P(x)`,
`P(x) → D(x)` and `P(0) → false`. -/
def onlyOne : Instance where
  name := "onlyOne"
  preds := [
    ⟨"D", [.int], [.int], [0],
      some ⟨[⟨"D!0", .int⟩], .op .eq [.const ⟨"D!0", .int⟩, .int 1]⟩⟩,
    ⟨"P", [.int], [.int], [0], none⟩]
  clauses := [
    ⟨0, [⟨"x", .int⟩], [], [⟨0, [[.const ⟨"x", .int⟩]]⟩], some (1, [.const ⟨"x", .int⟩]),
      false, true⟩,
    ⟨1, [⟨"x", .int⟩], [], [⟨1, [[.const ⟨"x", .int⟩]]⟩], some (0, [.const ⟨"x", .int⟩]),
      false, true⟩,
    ⟨2, [], [], [⟨1, [[.int 0]]⟩], none, false, true⟩]
  users := [[0], [1, 2]]
  producers := [[1], [0]]
  holders := 0
  expansions := []

/-- That `P!0` is not zero. -/
def notZero : Accumulator := [(1, [.neg (.op .eq [.const ⟨"P!0", .int⟩, .int 0])])]

theorem onlyOne_expressible : onlyOne.Expressible :=
  ⟨by decide, by decide, by decide, by decide, by decide⟩

theorem notZero_overParams : notZero.OverParams onlyOne.preds := by
  intro p q hq t ht
  match p, hq, ht with
  | 0, _, ht => cases ht
  | 1, hq, ht =>
    cases hq
    obtain rfl := List.mem_singleton.1 ht
    exact ⟨by decide, by decide⟩
  | _ + 2, hq, _ => cases hq

/-- The solution by which `P` holds of zero and one. -/
def zeroOrOne : Interpretation onlyOne.preds :=
  .ofRelations _ fun _ es => es = [⟨.int, (0 : ℤ)⟩] ∨ es = [⟨.int, (1 : ℤ)⟩]

section Reading

variable {M : Structure U} {J : Interpretation onlyOne.preds}

theorem applies_onlyOne_defined (hM : M.Reads J) {t : Term} (ht : t.sort = .int)
    (hw : t.isWellSorted [] = true) :
    M.Applies onlyOne.preds (0, [t]) ↔ M.eval [] t = ⟨.int, (1 : ℤ)⟩ := by
  have hargs : Term.castAll? [.int] [t] = some [t] := Term.castAll?_of_sorts (congrArg ([·]) ht)
  have hsort : (M.eval [] t).sort = .int := (M.sort_eval t [] hw).trans ht
  refine (hM.applies_defined_iff (p := 0) rfl rfl hargs (congrArg ([·]) hsort)).trans ?_
  exact M.sat_eq_int hsort 1

theorem applies_onlyOne_undefined (hM : M.Reads J) {t : Term} (ht : t.sort = .int)
    (hw : t.isWellSorted [] = true) :
    M.Applies onlyOne.preds (1, [t]) ↔ J.rel M 1 [M.eval [] t] := by
  have hargs : Term.castAll? [.int] [t] = some [t] := Term.castAll?_of_sorts (congrArg ([·]) ht)
  have hsort : (M.eval [] t).sort = .int := (M.sort_eval t [] hw).trans ht
  exact hM.applies_iff (p := 1) rfl rfl hargs (congrArg ([·]) hsort)

/-- What is known of an element is that it is not zero. -/
theorem rel_notZero (M : Structure U) {e : Element U} (h : e.sort = .int) :
    (notZero.interpretation onlyOne.preds notZero_overParams).rel M 1 [e] ↔
      e ≠ ⟨.int, (0 : ℤ)⟩ := by
  have hfit : Fits [.int] [e] := congrArg ([·]) h
  refine (Accumulator.conjoins_interpretation notZero_overParams M (p := 1) rfl rfl hfit).trans ?_
  refine (List.forall_mem_singleton.trans (Structure.sat_neg _ _)).trans (not_congr ?_)
  exact M.sat_eq_int h 0

/-- The rules have it that the arguments of `P` are not zero. -/
theorem ne_zero_of_known {c : Clause} (hknown : Known onlyOne notZero c M) {t : Term}
    (ha : (1, [t]) ∈ c.apps) (ht : t.sort = .int) (hw : t.isWellSorted [] = true) :
    M.eval [] t ≠ ⟨.int, (0 : ℤ)⟩ := by
  have hargs : Term.castAll? [.int] [t] = some [t] := Term.castAll?_of_sorts (congrArg ([·]) ht)
  have hknownAt := @knownAt_eq onlyOne notZero (1, [t]) _ rfl
    fun _ => congrArg ([·]) ht
  have hsat := hknown _ ha _ hknownAt
  rw [sat_knownAt_iff (Accumulator.conjoins_interpretation notZero_overParams) rfl rfl hargs
    (List.forall_mem_singleton.2 hw) hknownAt] at hsat
  exact (rel_notZero M ((M.sort_eval t [] hw).trans ht)).1 hsat

end Reading

/-- What is known is inductive: the element that `D` holds of is not zero. -/
theorem notZero_inductive : ∀ c ∈ onlyOne.clauses, ConcludesUndefined onlyOne c →
    (notZero.interpretation onlyOne.preds notZero_overParams).Satisfies c := by
  rintro c hc ⟨a, ha, q, hq, hd⟩ U M hM hbody
  simp only [onlyOne, List.mem_cons, List.not_mem_nil, or_false] at hc
  rcases hc with rfl | rfl | rfl
  · have hone := (applies_onlyOne_defined hM rfl rfl).1 (hbody.apps _ List.mem_cons_self)
    refine ⟨_, rfl, (applies_onlyOne_undefined hM rfl rfl).2 ((rel_notZero M rfl).2 ?_)⟩
    rw [hone]
    exact fun h => one_ne_zero (Element.int_inj.1 h)
  -- The other clauses do not conclude `P`.
  · cases ha
    cases hq
    cases hd
  · cases ha

/-- Zero and one are a solution: zero is excluded by what is known. -/
theorem zeroOrOne_solves {sys : RuleSystem} (hsys : ofInstance .any onlyOne notZero = .ok sys) :
    zeroOrOne.Solves sys := by
  refine solves_of_satClause onlyOne_expressible hsys
    (zeroOrOne.falsifies_of_forall_ne (by decide)) ?_
  intro c hc U M N hN hknown hbody
  simp only [onlyOne, List.mem_cons, List.not_mem_nil, or_false] at hc
  rcases hc with rfl | rfl | rfl
  · have hone := (applies_onlyOne_defined hN.reads rfl rfl).1 (hbody.apps _ List.mem_cons_self)
    refine ⟨_, rfl, (applies_onlyOne_undefined hN.reads rfl rfl).2 (.inr ?_)⟩
    rw [hone]
  · have hrel := (applies_onlyOne_undefined hN.reads rfl rfl).1 (hbody.apps _ List.mem_cons_self)
    have hne := ne_zero_of_known hknown List.mem_cons_self rfl rfl
    rw [hN.eval_eq (by decide)] at hne
    refine ⟨_, rfl, (applies_onlyOne_defined hN.reads rfl rfl).2 ?_⟩
    rcases hrel with hzero | hone
    · exact absurd (List.singleton_injective hzero) hne
    · exact List.singleton_injective hone
  · exact absurd rfl (ne_zero_of_known hknown List.mem_cons_self rfl rfl)

/-- In conjunction with what is known the solution is a model. -/
theorem ofInstance_sound_onlyOne : ∃ sys, ofInstance .any onlyOne notZero = .ok sys ∧
    zeroOrOne.Solves sys ∧ ∀ c ∈ onlyOne.clauses,
      (zeroOrOne.meet (notZero.interpretation onlyOne.preds notZero_overParams)).Satisfies c := by
  have hentries : ∀ e ∈ notZero, ¬onlyOne.IsDefined e.1 := by
    intro e he
    obtain rfl := List.mem_singleton.1 he
    rintro ⟨p, q, hp, hq, hd⟩
    obtain rfl : p = 1 := (Int.ofNat_inj.1 hp).symm
    cases hq
    exact hd rfl
  obtain ⟨hexists, hsound⟩ := ofInstance_sound onlyOne_expressible (by decide) hentries
    notZero_overParams notZero_inductive .any
  obtain ⟨sys, hsys⟩ := hexists Callable.reapplies_any (by decide)
  have hsolves := zeroOrOne_solves hsys
  exact ⟨sys, hsys, hsolves, hsound hsys zeroOrOne hsolves⟩

/-! ### A constant with the name of the error -/

/-- The predicate `P`, and a clause whose side condition is a free constant with the name of the
error. -/
def blind (conclusion : Option (Nat × List Term)) : Instance where
  name := "blind"
  preds := [⟨"P", [.int], [.int], [0], none⟩]
  clauses := [⟨0, [], [.const ⟨"__chcsplit_error", .bool⟩], [], conclusion, false, true⟩]
  users := [[]]
  producers := [conclusion.toList.map fun _ => 0]
  holders := 0
  expansions := []

/-- The interpretation by which `P` holds of nothing. -/
def nowhere : Interpretation (blind none).preds := .ofRelations _ fun _ _ => False

theorem empty_overParams : Accumulator.empty.OverParams (blind none).preds :=
  fun _ _ ht => absurd ht List.not_mem_nil

/-- There is a structure in which `P` holds of nothing and the constant is true. -/
theorem exists_reads_nowhere : ∃ M : Structure default, M.Reads
    (nowhere.meet (Accumulator.empty.interpretation _ empty_overParams)) ∧ M.Sat errorHead := by
  have hsafe : (blind none).AllSafe := by decide
  obtain ⟨M, hagree, hM⟩ := hsafe.exists_reads (by decide)
    ((default : Structure default).relate fun f =>
      if f = errorRelation then some fun _ => True else none)
    (nowhere.meet (Accumulator.empty.interpretation _ empty_overParams))
  refine ⟨M, hM, ?_⟩
  have hsymbol := hagree.symbol errorRelation (by decide)
  rw [errorHead, Structure.Sat, Structure.eval, Structure.evalList, hsymbol]
  simp only [Structure.relate, if_pos]
  have hvalue : (⟨errorRelation.range, (Element.truth True).get errorRelation.range⟩ :
      Element default) = Element.truth True := (Element.eq_get (s := .bool) rfl).symm
  rw [hvalue, Element.holds_truth]
  trivial

/-- The empty predicate solves a rule whose condition is the error. -/
theorem nowhere_solves (relations : List Symbol) (head : Term) :
    nowhere.Solves ⟨relations, errorRelation, [⟨[], [errorHead], head⟩]⟩ := by
  have hfalse : nowhere.Falsifies errorRelation := nowhere.falsifies_of_forall_ne (by decide)
  refine ⟨hfalse, fun r hr U M _ hexcludes hbody => ?_⟩
  obtain rfl := List.mem_singleton.1 hr
  -- The rule has no variables, so the error is false.
  obtain ⟨x, hx, -⟩ := hexcludes (hbody _ (List.mem_singleton_self _))
  cases hx

/-- The rules for a conclusion are solved by the empty predicate, which does not satisfy the
clause. -/
def Overlooks (conclusion : Option (Nat × List Term)) : Prop :=
  (blind conclusion).Expressible ∧
    (∃ sys, ofInstance .any (blind conclusion) .empty = .ok sys ∧ nowhere.Solves sys) ∧
    ∀ c ∈ (blind conclusion).clauses,
      ¬(nowhere.meet (Accumulator.empty.interpretation _ empty_overParams)).Satisfies c

/-- The rules overlook the clause that concludes a contradiction, and the one that concludes
`P(0)`. -/
theorem ofInstance_blind : Overlooks none ∧ Overlooks (some (0, [Term.int 0])) := by
  obtain ⟨M, hM, herror⟩ := exists_reads_nowhere
  have hbody : ∀ conclusion, ∀ c ∈ (blind conclusion).clauses, M.Body (blind none).preds c := by
    intro conclusion c hc
    obtain rfl := List.mem_singleton.1 hc
    exact ⟨List.forall_mem_singleton.2 herror, List.forall_mem_nil _⟩
  refine ⟨⟨⟨by decide, by decide, by decide, by decide, by decide⟩, ⟨_, rfl, nowhere_solves _ _⟩,
    fun c hc hsat => ?_⟩, ⟨by decide, by decide, by decide, by decide, by decide⟩,
    ⟨_, rfl, nowhere_solves _ _⟩, fun c hc hsat => ?_⟩
  · obtain ⟨a, ha, -⟩ := hsat _ M hM (hbody _ c hc)
    obtain rfl := List.mem_singleton.1 hc
    cases ha
  · obtain ⟨a, ha, happ⟩ := hsat _ M hM (hbody _ c hc)
    obtain rfl := List.mem_singleton.1 hc
    obtain rfl := Option.some.inj ha
    -- The conclusion would hold of zero, while `P` holds of nothing.
    exact (Interpretation.rel_meet.1 ((hM.applies_int_iff (p := 0) rfl rfl rfl 0).1 happ)).1

end RuleSystem
end Horn
