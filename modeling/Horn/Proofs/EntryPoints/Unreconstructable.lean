import Horn.Proofs.EntryPoints.Faults
import Horn.Proofs.EntryPoints.Trial
import Horn.Proofs.Semantics.Engine

/-!
# Samples that cannot be reconstructed

The verdict that a sample cannot be reconstructed is right
(`Reconstruction.not_derives_of_unreconstructable`). Nothing but the end of a search fails with this
verdict (`Reconstruction.raises_tried`), so all clauses that qualify have been tried in vain
(`Reconstruction.tried_of_unreconstructable`). A clause is tried in vain if the engine refutes what
the query asserts (`Reconstruction.unsat_of_answer`), and all of that is true wherever the clause
concludes the sample (`Reconstruction.sat_constraints`): the formula of an application has the
meaning of the definition, and the equation of an argument and a value that it has is true.
-/

namespace Horn

/-- The fault does not say that a sample cannot be reconstructed. -/
def Fault.Spares (fault : Fault) : Prop := ∀ s rendered, fault ≠ .unreconstructable s rendered

/-! ### Other failures -/

/-- A failure of a query does not say so. -/
theorem Fault.OfQuery.spares {fault : Fault} (h : fault.OfQuery) : fault.Spares := by
  rintro s rendered rfl
  obtain h | h | h := h rfl
  all_goals cases h

namespace Reconstruction

variable {engine : Engine} {r : Reconstruction} {pred : Int} {sample : Sample}

theorem spares_atHandle {α : Type} (table : List α) (i : Int) :
    Raises Fault.Spares (atHandle table i) :=
  (raises_atHandle table i).mono fun _ => Fault.OfQuery.spares

/-- Trying a clause never fails with the verdict on the sample. -/
theorem raises_tried (clause : Int) : Raises Fault.Spares (tried engine r pred sample clause) := by
  refine (spares_atHandle _ _).bind fun c _ => ?_
  split
  · exact raises_error nofun
  · next p args _ =>
    split
    · exact (spares_atHandle _ _).bind fun _ _ => (spares_atHandle _ _).bind fun _ _ =>
        raises_error nofun
    · split
      · exact raises_error nofun
      · have hquery : Raises Fault.Spares
            ((constraints engine.callable r.session c args sample.args).bind
              (answer engine r.positive r.session c)) :=
          (raises_asked engine r.positive r.session c args sample.args).mono
            fun _ => Fault.OfQuery.spares
        cases hx : (constraints engine.callable r.session c args sample.args).bind
            (answer engine r.positive r.session c) with
        | ok found => exact raises_ok _
        | error e =>
          -- A fault is wrapped up, or it is passed on.
          refine raises_error ?_
          unfold blame
          split
          · exact nofun
          · exact nofun
          · exact nofun
          · exact hquery e hx

/-! ### The verdict -/

/-- The verdict does not come from a part that fails otherwise. -/
theorem exists_of_bind_unreconstructable {α β : Type} {x : Except Fault α} {f : α → Except Fault β}
    {s : Sample} {rendered : String} (hx : Raises Fault.Spares x)
    (h : x.bind f = .error (.unreconstructable s rendered)) :
    ∃ a, x = .ok a ∧ f a = .error (.unreconstructable s rendered) := by
  cases x with
  | error e => exact absurd (Except.error.inj h) (hx e rfl s rendered)
  | ok a => exact ⟨a, rfl, h⟩

/-- The verdict is that all clauses have been tried in vain. -/
theorem tried_of_unreconstructable {s : Sample} {rendered : String}
    (h : recovered engine r pred sample = .error (.unreconstructable s rendered)) :
    ∃ facts others, r.clausesFor pred = .ok (facts, others) ∧
      ∀ i ∈ facts ++ others, tried engine r pred sample (i : Nat) = .ok none := by
  -- Neither the trials nor what comes before them raise this fault.
  have hfirst : ∀ cs, Raises Fault.Spares (firstTried engine r pred sample cs) := by
    intro cs
    induction cs with
    | nil => exact raises_ok _
    | cons c cs ih =>
      refine (raises_tried c).bind fun found _ => ?_
      cases found with
      | none => exact ih
      | some found => exact raises_ok _
  have htext : Raises Fault.Spares (sample.textIn r.original) :=
    (spares_atHandle _ _).bind fun _ _ => raises_ok _
  have hclauses : Raises Fault.Spares (r.clausesFor pred) := by
    refine Raises.bind ?_ fun _ _ => raises_ok _
    unfold Instance.producersOf Instance.indexed
    split
    · exact raises_error nofun
    · split
      · exact raises_ok _
      · exact raises_error nofun
  -- The sample has a text, its clauses are found and all are tried; the last step is the only one
  -- left.
  obtain ⟨rendered', -, h⟩ := exists_of_bind_unreconstructable htext h
  obtain ⟨⟨facts, others⟩, hclauses, h⟩ := exists_of_bind_unreconstructable hclauses h
  obtain ⟨found, hfound, h⟩ := exists_of_bind_unreconstructable (hfirst _) h
  cases found with
  | none => exact ⟨facts, others, hclauses, tried_of_firstTried hfound⟩
  | some found => cases h

/-! ### What the clauses could have given -/

/-- The structure gives the constants values under which the clause concludes the sample: its side
conditions are true, each application on its left is true of the arguments that the signature has
kept, and the arguments of the conclusion, at the sorts of the predicate, have the known values. -/
structure Derives {U : Universe} (M : Structure U) (original working : Instance) (c : Clause)
    (s : Sample) : Prop where
  terms : ∀ t ∈ c.terms, M.Sat t
  apps : ∀ a ∈ c.apps, ∃ q bs, working.preds[a.1]? = some q ∧
    q.positions.map (a.2[·]?) = bs.map some ∧ M.Applies working.preds (a.1, bs)
  conclusion : ∃ p q args bs, c.conclusion = some (p, args) ∧ (p : Int) = s.pred ∧
    original.preds[p]? = some q ∧ Term.castAll? q.sorts args = some bs ∧
    List.Forall₂ (fun b v => v = .unknown ∨ v.Is (M.eval [] b)) bs s.args

section Derives

variable {original working : Instance} {U : Universe} {M : Structure U} {c : Clause}

/-- The formula that is asserted for an application of a safe predicate is true if the application
is. -/
theorem sat_of_application (h : Compatible original working)
    (hM : M.ReadsOn working.preds (· ∈ working.safePredicates)) {p : Nat} {args : List Term}
    (hp : p ∈ working.safePredicates) (hw : ∀ t ∈ args, t.isWellSorted [] = true)
    (hfree : ∀ t ∈ args, ¬working.Mentions t) {callable : Callable} {name : String} {u : Term}
    (hu : Session.resolveApp callable name working p args true = .ok u) {q : Predicate}
    {bs : List Term} (hq : working.preds[p]? = some q)
    (hbs : q.positions.map (args[·]?) = bs.map some) (happ : M.Applies working.preds (p, bs)) :
    M.Sat u := by
  obtain ⟨q', cs, hq', hcs, hstands⟩ := stands_of_resolveApp h hp hw hfree hu
  obtain ⟨q'', cs', hq'', hcs', hrel⟩ := (M.applies_iff working.preds _).1 happ
  obtain rfl := Option.some.inj (hq.symm.trans hq')
  obtain rfl := Option.some.inj (hq.symm.trans hq'')
  -- The application is one to the arguments that are there, cast in the same way.
  have hpositions : q.positions.map (fun i => (args[i]?).getD .verum) = bs := by
    have hget := congrArg (List.map fun o : Option Term => o.getD .verum) hbs
    simpa [Function.comp_def] using hget
  rw [hpositions] at hcs
  obtain rfl := Option.some.inj (hcs.symm.trans hcs')
  rw [Structure.Sat, hstands.eval hM]
  exact (M.sat_application q cs).2 hrel

/-- An argument and the value at its position correspond after casting. -/
theorem exists_cast_of_mem_zip {R : Term → Value → Prop} {sorts : List TermSort}
    {args bs : List Term} {vs : List Value} (hcast : Term.castAll? sorts args = some bs)
    (h : List.Forall₂ R bs vs) {arg : Term} {v : Value} (hmem : (arg, v) ∈ args.zip vs) :
    ∃ s b, Term.cast? s arg = some b ∧ R b v := by
  fun_induction Term.castAll? sorts args generalizing bs vs with
  | case1 => cases hmem
  | case2 s ss t ts ih =>
    -- The two lists are cast and zipped place by place.
    obtain ⟨b, hb, hcast⟩ := Option.bind_eq_some_iff.1 hcast
    obtain ⟨bs', hbs, hcast⟩ := Option.bind_eq_some_iff.1 hcast
    obtain rfl := Option.some.inj hcast
    obtain ⟨w, ws, hw, hws, rfl⟩ := List.forall₂_cons_left_iff.1 h
    rw [List.zip_cons_cons, List.mem_cons] at hmem
    rcases hmem with hmem | hmem
    · cases hmem
      exact ⟨s, b, hb, hw⟩
    · exact ih hbs hws hmem
  | case3 => cases hcast

/-- The equation of an argument and a value that it has, at the sort it is cast to, is true. -/
theorem sat_of_pinned {arg b : Term} {s : TermSort} {v : Value} {vs : List Term}
    (hb : Term.cast? s arg = some b) (hw : arg.isWellSorted [] = true)
    (hv : v = .unknown ∨ v.Is (M.eval [] b)) (h : pinned arg v = .ok vs) : ∀ u ∈ vs, M.Sat u := by
  rcases pinned_ok h with rfl | ⟨l, hl, hls, rfl⟩
  · exact List.forall_mem_nil _
  · refine List.forall_mem_singleton.2 ?_
    rcases hv with rfl | hv
    · cases hl
    · obtain ⟨l', hl', -, hdenote⟩ := Value.toTerm_of_is_cast hb hw hv
      obtain rfl := Term.lit.inj (Except.ok.inj (hl.symm.trans hl'))
      rw [Structure.sat_eq, Structure.eval, hdenote]

/-- **What a query asserts** about a clause with safe predicates is true wherever the clause
concludes the sample. -/
theorem sat_constraints (h : Compatible original working)
    (hM : M.ReadsOn working.preds (· ∈ working.safePredicates)) {session : Session}
    (hc : c ∈ original.clauses) (hsafe : ∀ p ∈ c.usedPreds, p ∈ working.safePredicates)
    (hsession : c.usedPreds ≠ [] → session.definitions = some working) {s : Sample}
    (hs : Derives M original working c s) {p : Nat} {args ts : List Term}
    (hconclusion : c.conclusion = some (p, args)) {callable : Callable}
    (hts : constraints callable session c args s.args = .ok ts) : ∀ u ∈ ts, M.Sat u := by
  intro u hu
  rcases (mem_constraints hts u).1 hu with ⟨t, ht, vs, hvs, hu⟩ | ⟨a, ha, vs, hvs, hu⟩ |
    ⟨⟨arg, v⟩, ha, vs, hvs, hu⟩
  · -- A side condition.
    obtain ⟨-, rfl⟩ := formula_ok hvs
    obtain rfl := List.mem_singleton.1 hu
    exact hs.terms u ht
  · -- An application on the left.
    have hused : a.1 ∈ c.usedPreds := Clause.mem_usedPreds ha
    obtain ⟨inst, u', hdefinitions, hresolve, -, rfl⟩ := application_ok hvs
    obtain rfl := List.mem_singleton.1 hu
    obtain rfl := Option.some.inj
      (hdefinitions.symm.trans (hsession (List.ne_nil_of_mem hused)))
    obtain ⟨q, bs, hq, hbs, happ⟩ := hs.apps a ha
    exact sat_of_application h hM (hsafe a.1 hused)
      (fun t ht => h.wellSorted c hc t (Clause.mem_parts_of_app ha ht))
      (fun t ht => h.free c hc t (Clause.mem_parts_of_app ha ht)) hresolve hq hbs happ
  · -- An argument of the conclusion.
    obtain ⟨p', q, args', bs, hconclusion', -, -, hcast, hvalues⟩ := hs.conclusion
    cases hconclusion.symm.trans hconclusion'
    obtain ⟨sort, b, hb, hv⟩ := exists_cast_of_mem_zip hcast hvalues ha
    have harg : arg.isWellSorted [] = true := h.wellSorted c hc arg
      (Clause.mem_parts_of_conclusion hconclusion (List.of_mem_zip ha).1)
    exact sat_of_pinned hb harg hv hvs u hu

/-- Reconstructs one sample, once the definitions have been written if there is a safe predicate. -/
def reconstructOne (engine : Engine) (s : Sample) : Act Reconstruction Unit := do
  let r ← get
  if !r.safe.isEmpty then onSession (Session.writeDefinitions r.working)
  reconstruct engine s.pred s

/-- The verdict is about what is recovered once the definitions have been written. -/
theorem recovered_of_reconstructOne {s s' : Sample} {rendered : String}
    (h : ((reconstructOne engine s).exec r).1 = .error (.unreconstructable s' rendered)) :
    ∃ r', opened r = .ok r' ∧
      recovered engine r' s.pred s = .error (.unreconstructable s' rendered) := by
  obtain ⟨log, hopen⟩ := runFrom_opened (fun _ => reconstruct engine s.pred s) r []
  have hrun := (congrArg Prod.fst hopen).symm.trans h
  cases hopened : opened r with
  | error e =>
    rw [hopened] at hrun
    cases hrun
    -- Writing fails because it has been done before, and in no other way.
    unfold opened at hopened
    split at hopened
    · cases hopened
    · split at hopened <;> cases hopened
  | ok r' =>
    obtain ⟨r'', log', hreconstruct, -⟩ := runFrom_reconstruct engine s.pred s r' log
    rw [hopened] at hrun
    dsimp only at hrun
    rw [hreconstruct] at hrun
    refine ⟨r', rfl, ?_⟩
    cases hrecovered : recovered engine r' s.pred s with
    | error e =>
      rw [hrecovered] at hrun
      exact congrArg Except.error (Except.error.inj hrun)
    | ok found =>
      rw [hrecovered] at hrun
      cases hrun

/-- **A sample is declared unreconstructable only if it is.** If reconstructing a sample, after the
definitions have been written, ends with that verdict, then no clause of the original instance whose
predicates on the left are all safe concludes the sample: not in any structure in which the safe
predicates are as the definitions of the working instance say. The verdicts of the engine have to be
right, and the structures are those in which the assertions of the session are true. -/
theorem not_derives_of_unreconstructable {engine : Engine} (he : engine.Decides)
    (h : Compatible original working) {todo : List Sample} {session : Session} {r : Reconstruction}
    {log : Log} (hcreate : create original working todo session = .ok (r, log))
    (hformulas : ∀ t ∈ session.assertions, t.IsFormula) {s s' : Sample} {rendered : String}
    (hrun : ((reconstructOne engine s).exec r).1 = .error (.unreconstructable s' rendered))
    (hc : c ∈ original.clauses) (hsafe : ∀ p ∈ c.usedPreds, p ∈ working.safePredicates)
    (hM : M.ReadsOn working.preds (· ∈ working.safePredicates))
    (hsession : ∀ t ∈ session.assertions, M.Sat t) : ¬Derives M original working c s := by
  intro hs
  obtain rfl := create_ok hcreate
  obtain ⟨r', hopened, hrecovered⟩ := recovered_of_reconstructOne hrun
  have hopen := isOpen_of_opened hopened
  obtain ⟨p, q, args, bs, hconclusion, hp, -⟩ := hs.conclusion
  rw [← hp] at hrecovered
  obtain ⟨facts, others, hclauses, htried⟩ := tried_of_unreconstructable hrecovered
  have hindexed : r'.original.Indexed := hopen.original ▸ h.indexed
  rw [← hopen.original] at hc
  -- The clause has been tried in vain, so its constraints are contradictory.
  have hmem : c.index ∈ facts ++ others := by
    refine mem_clausesFor hindexed hclauses hc ?_ (hopen.safe ▸ hsafe)
    rw [Clause.concludedPreds, hconclusion]
    exact List.mem_singleton_self p
  obtain ⟨p', args', ts, hconclusion', hts, hanswer⟩ := tried_ok hindexed hc (htried _ hmem)
  cases hconclusion.symm.trans hconclusion'
  have hunsat := unsat_of_answer hanswer
  rw [hopen.original] at hc
  have hwritten := hopen.written hsafe
  have hformulas' := isFormula_of_constraints h hc hsafe hwritten hconclusion hts
  have hsat := sat_constraints h hM hc hsafe hwritten hs hconclusion hts
  rw [hopen.assertions] at hunsat
  refine he.unsat (fun t ht => ?_) hunsat M fun t ht => ?_
  · exact (List.mem_append.1 ht).elim (hformulas t) (hformulas' t)
  · exact (List.mem_append.1 ht).elim (hsession t) (hsat t)

end Derives

/-- The predicates `A(x)`, `B(b, x)` and `C(x)` with the clause `B(b, x) → C(x)`. -/
def barred : Instance where
  name := "barred"
  preds := [
    ⟨"A", [.int], [.int], [0], none⟩,
    ⟨"B", [.bool, .int], [.bool, .int], [0, 1], none⟩,
    ⟨"C", [.int], [.int], [0], none⟩]
  clauses := [
    ⟨0, [⟨"b", .bool⟩, ⟨"x", .int⟩], [],
      [⟨1, [[.const ⟨"b", .bool⟩, .const ⟨"x", .int⟩]]⟩], some (2, [.const ⟨"x", .int⟩]), false,
      true⟩]
  users := [[], [0], []]
  producers := [[], [], [0]]
  holders := 0
  expansions := []

/-- The same predicates with the definitions `A(x) := false` and `B(b, x) := A(x)`; the first
argument of `B` is gone. -/
def bars : Instance where
  name := "bars"
  preds := [
    ⟨"A", [.int], [.int], [0], some ⟨[⟨"A!0", .int⟩], .falsum⟩⟩,
    ⟨"B", [.int], [.bool, .int], [1],
      some ⟨[⟨"B!0", .int⟩], .fn ⟨"A", [.int], .bool⟩ [.const ⟨"B!0", .int⟩]⟩⟩,
    ⟨"C", [.int], [.int], [0], none⟩]
  clauses := []
  users := [[], [], []]
  producers := [[], [], []]
  holders := 0
  expansions := []

/-- `C(3)` is declared unreconstructable, and no structure concludes it. -/
theorem not_derives_barred :
    ((reconstructOne Engine.literal ⟨2, [.int 3]⟩).exec
        (initial barred bars [] (Session.create "session" none))).1 =
      .error (.unreconstructable ⟨2, [.int 3]⟩ "(C 3)") ∧
    ∃ M : Structure default, M.ReadsOn bars.preds (· ∈ bars.safePredicates) ∧
      ¬Derives M barred bars barred.clauses[0] ⟨2, [.int 3]⟩ := by
  have hrun : ((reconstructOne Engine.literal ⟨2, [.int 3]⟩).exec
      (initial barred bars [] (Session.create "session" none))).1 =
        .error (.unreconstructable ⟨2, [.int 3]⟩ "(C 3)") := rfl
  have hnames : DistinctNames bars.preds := by decide
  obtain ⟨M, -, hM⟩ := Instance.exists_readsOn_safe hnames (default : Structure default)
  exact ⟨hrun, M, hM, not_derives_of_unreconstructable Engine.decides_literal (by decide) rfl
    (List.forall_mem_nil _) hrun (List.getElem_mem _) (by decide) hM (List.forall_mem_nil _)⟩

end Reconstruction
end Horn
