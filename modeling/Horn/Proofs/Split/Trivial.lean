import Horn.Proofs.Act
import Horn.Proofs.Instance.Safe
import Horn.Proofs.Instance.WellFormed
import Horn.Proofs.Semantics.Engine

/-!
# Trivial decisions

`trivialModel` decides an instance by looking at its only negative clause, and at that clause only
when it has no application on the left. `Decided` lists all that it can answer.

An answer *unsatisfiable* is right: the side condition of the negative clause holds in some
structure, and the predicates of that structure can be changed to read any interpretation.

An answer *satisfiable* offers the model without fragments, in which every undefined predicate
holds of everything. That model takes care of the negative clause and of every clause that
concludes an undefined predicate. But a clause that concludes a defined predicate is a constraint,
and the decision does not look at it. `trivialModel_decides` therefore says exactly when the offered
model is one.
-/

namespace Horn

variable {κ : Type} {engine : Engine} {inst : Instance}

/-! ### What is answered -/

/-- Indices of negative clauses come from negative clauses. -/
theorem Instance.negClauses_eq_singleton {n : Nat} (h : inst.negClauses = [n]) :
    ∃ c, inst.clauses.filter (·.isNegative) = [c] ∧ c.index = n := by
  unfold Instance.negClauses at h
  obtain ⟨c, hc, hn⟩ := List.map_eq_singleton_iff.1 h
  exact ⟨c, hc, hn⟩

/-- The only negative clause is a clause without conclusion. -/
theorem mem_of_filter_isNegative {inst : Instance} {c : Clause}
    (h : inst.clauses.filter (·.isNegative) = [c]) : c ∈ inst.clauses ∧ c.conclusion = none := by
  obtain ⟨hc, hneg⟩ := List.mem_filter.1 (h ▸ List.mem_singleton_self c)
  exact ⟨hc, Option.isNone_iff_eq_none.1 hneg⟩

/-- All that a trivial decision can answer, and what the engine has said then. -/
inductive Decided (engine : Engine) (inst : Instance) : Option Definitions → Prop
  | noNegative : inst.clauses.filter (·.isNegative) = [] → Decided engine inst (some [])
  | vacuous {c : Clause} : inst.clauses.filter (·.isNegative) = [c] → c.uses = [] →
      engine.check c.terms = .unsat → Decided engine inst (some [])
  | contradiction {c : Clause} {m : Model} : inst.clauses.filter (·.isNegative) = [c] →
      c.uses = [] → engine.check c.terms = .sat m → Decided engine inst none

/-- **A trivial decision** has one of three reasons. -/
theorem decided_of_trivialModel (hinst : inst.WellFormed) {w w' : World κ}
    {answer : Option Definitions}
    (h : (trivialModel engine inst).runFrom w = (.ok (some answer), w')) :
    Decided engine inst answer := by
  unfold trivialModel at h
  split at h
  case h_1 hneg =>
    cases h
    exact .noNegative (List.map_eq_nil_iff.1 hneg)
  -- Several negative clauses are not decided.
  case h_2 => simp at h
  case h_3 n hneg =>
    obtain ⟨c, hc, rfl⟩ := Instance.negClauses_eq_singleton hneg
    obtain ⟨hmem, -⟩ := mem_of_filter_isNegative hc
    rw [hinst.clause_index hmem, Act.runFrom_bind_of_ok (Act.runFrom_ofExcept _ w)] at h
    split at h
    · -- A clause with applications is not decided, either.
      simp at h
    · next huses =>
      have huses : c.uses = [] := by simpa using huses
      split at h
      · simp at h
      · split at h
        · next hcheck =>
          rw [Act.runFrom_bind_of_ok (Act.runFrom_debug _ _ w)] at h
          cases h
          exact .vacuous hc huses hcheck
        · next m hcheck =>
          rw [Act.runFrom_bind_of_ok (Act.runFrom_debug _ _ w)] at h
          cases h
          exact .contradiction hc huses hcheck
        · simp at h

/-- A trivial decision about a well-formed instance does not fail, and it changes nothing. -/
theorem trivialModel_runs (engine : Engine) (hinst : inst.WellFormed) (w : World κ) :
    ∃ answer log, (trivialModel engine inst).runFrom w = (.ok answer, w.1, log) := by
  unfold trivialModel
  split
  case h_1 => exact ⟨_, _, rfl⟩
  case h_2 => exact ⟨_, _, rfl⟩
  case h_3 n hneg =>
    obtain ⟨c, hc, rfl⟩ := Instance.negClauses_eq_singleton hneg
    obtain ⟨hmem, -⟩ := mem_of_filter_isNegative hc
    -- The side conditions of a well-formed clause are formulas.
    have hbool : (c.terms.any fun t => !t.isBool) = false := by
      rw [List.any_eq_false]
      intro t ht
      simp [((hinst.clauses c hmem).terms t ht).isBool]
    rw [hinst.clause_index hmem, Act.runFrom_bind_of_ok (Act.runFrom_ofExcept _ w)]
    split
    · exact ⟨_, _, rfl⟩
    · rw [hbool, if_neg Bool.false_ne_true]
      split <;> exact ⟨_, _, rfl⟩

/-- The partial model of a decision is the empty one. -/
theorem eq_nil_of_trivialModel {model : Definitions} {w w' : World κ}
    (h : (trivialModel engine inst).runFrom w = (.ok (some (some model)), w')) : model = [] := by
  unfold trivialModel at h
  split at h
  · cases h
    rfl
  · cases h
  · obtain ⟨c, w₁, -, h⟩ := Act.runFrom_bind_ok.1 h
    -- Of the decisions about a clause, only the one that it is vacuous has a model.
    split at h
    · cases h
    · split at h
      · cases h
      · split at h <;> cases h
        rfl

/-- **The standard preprocessor** isolates the clause. It answers with the decision about the
sub-instance, or else with that. -/
theorem reduceClause_ok {isolated : Int} {excluded : List Nat} {w w' : World κ} {reduced : Reduced}
    (h : (reduceClause engine inst isolated excluded).runFrom w = (.ok reduced, w')) :
    ∃ sub answer, ∃ w₁ w₂ : World κ, inst.isolate isolated = .ok sub ∧
      (trivialModel engine sub).runFrom w₁ = (.ok answer, w₂) ∧
      reduced = answer.elim (.sub sub) .trivial := by
  unfold reduceClause at h
  obtain ⟨c, w₁, -, h⟩ := Act.runFrom_bind_ok.1 h
  split at h
  · cases h
  · obtain ⟨sub, w₂, hsub, h⟩ := Act.runFrom_bind_ok.1 h
    obtain ⟨_, w₃, -, h⟩ := Act.runFrom_bind_ok.1 h
    obtain ⟨answer, w₄, hanswer, h⟩ := Act.runFrom_bind_ok.1 h
    rw [Act.runFrom_ofExcept] at hsub
    refine ⟨sub, answer, w₃, w₄, (Prod.mk.inj hsub).1, hanswer, ?_⟩
    cases answer <;> cases h <;> rfl

/-! ### What the answers mean -/

namespace Instance

/-- The clause concludes a defined predicate. -/
def ConcludesDefined (inst : Instance) (c : Clause) : Prop :=
  ∃ a ∈ c.conclusion, (inst.definition? a.1).isSome

/-- The full interpretation satisfies a clause that concludes an undefined predicate. -/
theorem WellFormed.full_satisfies (hinst : inst.WellFormed) {c : Clause} (hc : c ∈ inst.clauses)
    (hpos : c.isNegative = false) (hundef : ¬inst.ConcludesDefined c) :
    (Interpretation.full inst.preds).Satisfies c := by
  intro U M hM _
  obtain ⟨a, ha⟩ : ∃ a, c.conclusion = some a := by
    rw [Clause.isNegative, Option.isNone_eq_false_iff] at hpos
    exact Option.isSome_iff_exists.1 hpos
  obtain ⟨q, hq, happ, hsorted⟩ := (hinst.clauses c hc).conclusion a ha
  obtain ⟨t, ht⟩ := Option.isSome_iff_exists.1 happ
  obtain ⟨args, -, hargs⟩ := Symbol.app?_spec ht
  have hqd : q.definition = none := by
    by_contra hd
    refine hundef ⟨a, ha, ?_⟩
    rw [Instance.definition?, hq, Option.bind_some]
    exact Option.isSome_iff_ne_none.2 hd
  refine ⟨a, ha, (Structure.applies_iff M inst.preds a).2 ⟨q, args, hq, hargs, ?_⟩⟩
  -- The arguments are of the sorts of the signature, where the full interpretation says yes.
  obtain ⟨hsorts, -, hw⟩ := Term.castAll?_spec hargs
  have hfit : Fits q.sorts (args.map (M.eval [])) := by
    rw [Fits, Structure.fits_eval M (hw [] hsorted), hsorts]
    rfl
  exact (hM.undefined hq hqd hfit).2 trivial

/-- If the full interpretation satisfies the negative clauses, it satisfies all clauses but those
that conclude a defined predicate, and the model without fragments is one if it satisfies these. -/
theorem WellFormed.models_nil_of_negative (hinst : inst.WellFormed)
    (hneg : ∀ c ∈ inst.clauses, c.isNegative = true →
      (Interpretation.full inst.preds).Satisfies c) :
    (∀ c ∈ inst.clauses, ¬inst.ConcludesDefined c →
      (Interpretation.full inst.preds).Satisfies c) ∧
    (Models inst.preds inst.clauses (fun _ => []) ↔
      ∀ c ∈ inst.clauses, inst.ConcludesDefined c →
        (Interpretation.full inst.preds).Satisfies c) := by
  have hother : ∀ c ∈ inst.clauses, ¬inst.ConcludesDefined c →
      (Interpretation.full inst.preds).Satisfies c := by
    intro c hc hd
    cases hcn : c.isNegative with
    | true => exact hneg c hc hcn
    | false => exact hinst.full_satisfies hc hcn hd
  refine ⟨hother, ?_⟩
  rw [models_nil_iff]
  -- The clauses that conclude a defined predicate are what is left to ask for.
  refine ⟨fun hall c hc _ => hall c hc, fun hdef c hc => ?_⟩
  by_cases hd : inst.ConcludesDefined c
  · exact hdef c hc hd
  · exact hother c hc hd

/-- A negative clause without applications is satisfied by every interpretation if its side
condition cannot hold. -/
theorem satisfies_of_unsat (hE : engine.Decides) (hinst : inst.WellFormed) {c : Clause}
    (hc : c ∈ inst.clauses) (hcheck : engine.check c.terms = .unsat)
    (J : Interpretation inst.preds) : J.Satisfies c :=
  fun _ M _ hbody => absurd hbody.terms (hE.unsat (hinst.clauses c hc).terms hcheck M)

/-- A negative clause without applications is satisfied by no interpretation if its side condition
can hold. -/
theorem not_satisfies_of_sat (hE : engine.Decides) (hinst : inst.WellFormed)
    (hsafe : inst.AllSafe) {c : Clause} (hc : c ∈ inst.clauses) (hneg : c.conclusion = none)
    (huses : c.uses = []) (hfree : ∀ t ∈ c.terms, inst.predsIn t = []) {m : Model}
    (hcheck : engine.check c.terms = .sat m) (J : Interpretation inst.preds) :
    ¬J.Satisfies c := by
  intro hJ
  obtain ⟨U, M, hM⟩ := hE.sat (hinst.clauses c hc).terms hcheck
  -- The structure of the engine knows nothing of the interpretation, so it is changed to read it.
  obtain ⟨N, hagree, hreads⟩ := hsafe.exists_reads hinst.names M J
  have hbody : N.Body inst.preds c := by
    constructor
    · intro t ht
      -- The side conditions mention no predicate, and are not affected by the change.
      refine (Structure.sat_congr (hagree.mono fun f hf q hq hqf => ?_)).2 (hM t ht)
      obtain ⟨p, hp⟩ := List.getElem?_of_mem hq
      have hmem : p ∈ inst.predsIn t := mem_predsIn.2 ⟨q, hp, hqf ▸ hf⟩
      rw [hfree t ht] at hmem
      cases hmem
    · intro a ha
      rw [Clause.apps, huses] at ha
      cases ha
  obtain ⟨a, ha, -⟩ := hJ U N hreads hbody
  rw [hneg] at ha
  cases ha

end Instance

/-- What the answers are worth. -/
theorem Decided.right (hE : engine.Decides) (hinst : inst.WellFormed) (hsafe : inst.AllSafe)
    (hfree : ∀ c ∈ inst.clauses, ∀ t ∈ c.terms, inst.predsIn t = [])
    {answer : Option Definitions} (h : Decided engine inst answer) :
    (∀ model, answer = some model → model = [] ∧
      (∀ c ∈ inst.clauses, ¬inst.ConcludesDefined c →
        (Interpretation.full inst.preds).Satisfies c) ∧
      (Models inst.preds inst.clauses (fun _ => []) ↔
        ∀ c ∈ inst.clauses, inst.ConcludesDefined c →
          (Interpretation.full inst.preds).Satisfies c)) ∧
    (answer = none → ¬Satisfiable inst.preds inst.clauses) := by
  cases h with
  -- Without negative clauses there is nothing that the full interpretation could violate.
  | noNegative hnone =>
    refine ⟨fun model hm => ?_, fun h => by cases h⟩
    cases hm
    refine ⟨rfl, hinst.models_nil_of_negative fun c hc hneg => ?_⟩
    have hmem : c ∈ inst.clauses.filter (·.isNegative) := List.mem_filter.2 ⟨hc, hneg⟩
    rw [hnone] at hmem
    cases hmem
  | @vacuous c hc _ hcheck =>
    refine ⟨fun model hm => ?_, fun h => by cases h⟩
    cases hm
    refine ⟨rfl, hinst.models_nil_of_negative fun c' hc' hneg => ?_⟩
    -- There is no other negative clause.
    have hmem : c' ∈ inst.clauses.filter (·.isNegative) := List.mem_filter.2 ⟨hc', hneg⟩
    rw [hc, List.mem_singleton] at hmem
    rw [hmem]
    exact Instance.satisfies_of_unsat hE hinst (mem_of_filter_isNegative hc).1 hcheck _
  | @contradiction c m hc huses hcheck =>
    obtain ⟨hmem, hneg⟩ := mem_of_filter_isNegative hc
    refine ⟨fun model hm => (by cases hm), fun _ => ?_⟩
    rintro ⟨J, hJ⟩
    exact Instance.not_satisfies_of_sat hE hinst hsafe hmem hneg huses (hfree c hmem) hcheck J
      (hJ c hmem)

/-- **What trivial decisions are worth.** When the answer is a model, it is the model without
fragments. It satisfies every clause that does not conclude a defined predicate, and all clauses
exactly if it satisfies those that do; these are not looked at. When the answer is that there is no
model, there is none. -/
theorem trivialModel_decides (hE : engine.Decides) (hinst : inst.WellFormed)
    (hsafe : inst.AllSafe) (hfree : ∀ c ∈ inst.clauses, ∀ t ∈ c.terms, inst.predsIn t = [])
    (s : κ) {s' : κ} {log : Log} {answer : Option Definitions}
    (h : (trivialModel engine inst).exec s = (.ok (some answer), s', log)) :
    (∀ model, answer = some model → model = [] ∧
      (∀ c ∈ inst.clauses, ¬inst.ConcludesDefined c →
        (Interpretation.full inst.preds).Satisfies c) ∧
      (Models inst.preds inst.clauses (fun _ => []) ↔
        ∀ c ∈ inst.clauses, inst.ConcludesDefined c →
          (Interpretation.full inst.preds).Satisfies c)) ∧
    (answer = none → ¬Satisfiable inst.preds inst.clauses) := by
  rw [Act.exec_eq] at h
  exact (decided_of_trivialModel hinst h).right hE hinst hsafe hfree

/-! ### Two decisions -/

/-- The predicate `P`, defined by `P!0 > 0`. -/
def positiveNumbers : Predicate :=
  ⟨"P", [.int], [.int], [0], some ⟨[⟨"P!0", .int⟩], .op .gt [.const ⟨"P!0", .int⟩, .int 0]⟩⟩

/-- The predicates `P`, which is defined, and `Q`, with the clauses `true → Q(x)` and
`false → false`. -/
def vacuous : Instance where
  name := "vacuous"
  preds := [positiveNumbers, ⟨"Q", [.int], [.int], [0], none⟩]
  clauses := [
    ⟨0, [⟨"x", .int⟩], [], [], some (1, [.const ⟨"x", .int⟩]), false, true⟩,
    ⟨1, [], [.falsum], [], none, false, true⟩]
  users := [[], []]
  producers := [[], [0]]
  holders := 0
  expansions := []

/-- The decision about `vacuous` is right. -/
theorem trivialModel_vacuous :
    ∃ log, (trivialModel Engine.literal vacuous).exec () = (.ok (some (some [])), (), log) ∧
      Models vacuous.preds vacuous.clauses (fun _ => []) := by
  obtain ⟨log, hrun⟩ : ∃ log,
      (trivialModel Engine.literal vacuous).exec () = (.ok (some (some [])), (), log) := ⟨_, rfl⟩
  refine ⟨log, hrun, ?_⟩
  refine ((trivialModel_decides Engine.decides_literal (by decide) (by decide) (by decide) ()
    hrun).1 [] rfl).2.2.2 ?_
  -- No clause concludes `P`, the predicate that is defined.
  rintro c hc ⟨a, ha, hdef⟩
  simp only [vacuous, List.mem_cons, List.not_mem_nil, or_false] at hc
  rcases hc with rfl | rfl
  · cases ha
    cases hdef
  · cases ha

/-- The predicate `P` of positive numbers with the clause `true → P(x)`. -/
def allPositive : Instance where
  name := "allPositive"
  preds := [positiveNumbers]
  clauses := [⟨0, [⟨"x", .int⟩], [], [], some (0, [.const ⟨"x", .int⟩]), false, true⟩]
  users := [[]]
  producers := [[0]]
  holders := 0
  expansions := []

/-- The decision about `allPositive` is wrong: the model without fragments is offered, and it
violates the only clause. -/
theorem trivialModel_allPositive :
    allPositive.WellFormed ∧ allPositive.AllSafe ∧
      (∀ c ∈ allPositive.clauses, ∀ t ∈ c.terms, allPositive.predsIn t = []) ∧
      (∀ engine, (trivialModel engine allPositive).exec () = (.ok (some (some [])), (), [])) ∧
      ¬Models allPositive.preds allPositive.clauses (fun _ => []) := by
  refine ⟨by decide, by decide, by decide, fun _ => rfl, ?_⟩
  rw [models_nil_iff]
  intro h
  have hsafe : allPositive.AllSafe := by decide
  -- In this structure the value of `x` is zero.
  let M : Structure default := default
  obtain ⟨N, hagree, hreads⟩ :=
    hsafe.exists_reads (by decide) M (Interpretation.full allPositive.preds)
  obtain ⟨a, ha, happ⟩ := h _ (List.mem_singleton_self _) _ N hreads
    ⟨fun t ht => absurd ht List.not_mem_nil, fun a ha => absurd ha List.not_mem_nil⟩
  cases ha
  obtain ⟨q, args, hq, hargs, hrel⟩ := (N.applies_iff _ _).1 happ
  cases hq
  cases hargs
  have hx : N.symbol ⟨"x", [], .int⟩ = M.symbol ⟨"x", [], .int⟩ :=
    hagree.symbol _ (by decide)
  have hfit : Fits positiveNumbers.sorts ([Term.const ⟨"x", .int⟩].map (N.eval [])) := rfl
  have hpos := (hreads.defined (List.mem_singleton_self _) rfl hfit).1 hrel
  -- What the definition says about zero is false.
  simp only [Structure.Sat, Structure.eval, Structure.evalList, Structure.assign, Term.const,
    Term.int, Constant.symbol, Op.denote, Op.compare, Element.holds_truth, Element.nth,
    Element.toInt, Literal.denote, List.map_cons, List.map_nil, List.zip_cons_cons,
    List.zip_nil_right, List.reverse_singleton, List.find?_cons_of_pos, beq_self_eq_true, hx,
    List.getD_cons_zero, List.getD_cons_succ, Element.get_mk, reduceCtorEq, false_and, false_or,
    ne_eq, not_false_eq_true, true_and] at hpos
  exact lt_irrefl (0 : ℤ) hpos

end Horn
