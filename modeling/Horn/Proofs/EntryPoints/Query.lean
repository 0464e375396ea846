import Horn.EntryPoints.Reconstruction
import Horn.Proofs.Instance.Meaning
import Horn.Proofs.Instance.WellFormed
import Horn.Proofs.Oracle.Scope
import Horn.Proofs.Sample.Value

/-!
# Queries of reconstruction

A query asserts certain formulas in a scope of its own (`Reconstruction.constraints`), and the
engine's verdict about them decides what it answers (`Reconstruction.answer`). Both only depend on
the name, the definitions and the assertions of the session, and the session is as before afterwards
(`Reconstruction.runFrom_query`).
-/

namespace Horn
namespace Reconstruction

/-- The equation of an argument and a value as the list that is asserted. -/
def pinned (arg : Term) (v : Value) : Except Fault (List Term) := (pin arg v).map Option.toList

/-- The formulas that a query asserts: the side conditions of the clause, the applications on its
left in terms of the definitions, and the equations of the conclusion's arguments and the values. -/
def constraints (callable : Callable) (s : Session) (c : Clause) (args : List Term)
    (values : List Value) : Except Fault (List Term) :=
  Session.both ((c.terms.mapM Session.formula).map List.flatten)
    (Session.both ((c.apps.mapM fun a => s.application callable a.1 a.2 true).map List.flatten)
      (((args.zip values).mapM fun a => pinned a.1 a.2).map List.flatten))

/-- The samples that a model makes of the applications of positive predicates on the left of a
clause. -/
def evaluated (positive : List Nat) (c : Clause) (m : Model) : Except Fault (List Sample) :=
  (c.uses.mapM fun u => (Sample.ofModel m u.pred u.args).map fun found =>
    if positive.contains u.pred then found else []).map List.flatten

/-- The answer to a query that asserts the formulas `ts`. -/
def answer (engine : Engine) (positive : List Nat) (s : Session) (c : Clause) (ts : List Term) :
    Except Fault (Option (List Sample)) :=
  match engine.check (s.assertions ++ ts) with
  | .unknown => .error (.undecided s.name .engineUnknown)
  | .unsat => .ok none
  | .sat m => (evaluated positive c m).map some

/-- An equation is a formula. -/
theorem asserts_pin (s : Session) (arg : Term) (v : Value) :
    Session.Asserts s (do
      match ← Act.ofExcept (pin arg v) with
      | some t => Session.assertTerm t
      | none => pure ()) (pinned arg v) := by
  have hpinned : pinned arg v = (pin arg v).bind fun
      | some t => Session.formula t
      | none => .ok [] := by
    -- An equation is Boolean, so it is a formula as it stands.
    unfold pinned pin
    split
    · rfl
    · cases v.toTerm arg.sort <;> rfl
  rw [hpinned]
  refine Session.Asserts.ofExcept fun o _ => ?_
  cases o with
  | none => exact Session.asserts_nothing
  | some t => exact Session.asserts_assertTerm t

/-- The values of the applications are read off the last model. -/
theorem runFrom_evaluate (positive : List Nat) (c : Clause) (m : Model) (w : World Session)
    (h : w.1.model = some m) :
    (do
      let m ← Session.getModel
      let found ← c.uses.mapM fun u => do
        let samples ← Act.ofExcept (Sample.ofModel m u.pred u.args)
        pure (if positive.contains u.pred then samples else [])
      pure (some found.flatten) : Act Session (Option (List Sample))).runFrom w =
      ((evaluated positive c m).map some, w) := by
  have hmodel : Session.getModel.runFrom w = (.ok m, w) := by
    unfold Session.getModel
    rw [Act.runFrom_bind_of_ok (Act.runFrom_get _), h]
    rfl
  let g (u : Uses) : Except Fault (List Sample) := (Sample.ofModel m u.pred u.args).map fun found =>
    if positive.contains u.pred then found else []
  -- The loop reads one use after the other, without touching the session.
  have hloop := Act.runFrom_mapM (w := w) (l := c.uses) (g := g)
    (f := fun u => (do
      let samples ← Act.ofExcept (Sample.ofModel m u.pred u.args)
      pure (if positive.contains u.pred then samples else []) : Act Session (List Sample)))
    fun u _ => by
      rw [Act.runFrom_bind, Act.runFrom_ofExcept]
      change _ = ((Sample.ofModel m u.pred u.args).map _, w)
      cases Sample.ofModel m u.pred u.args <;> rfl
  rw [Act.runFrom_bind_of_ok hmodel, Act.runFrom_bind, hloop]
  change _ = (((c.uses.mapM g).map List.flatten).map some, w)
  cases c.uses.mapM g <;> rfl

/-- Asking, and evaluating if there is a model. -/
theorem answers_ask (engine : Engine) (positive : List Nat) (s : Session) (c : Clause) :
    s.Answers (do
      if ← Session.checkSat engine then
        let m ← Session.getModel
        let found ← c.uses.mapM fun u => do
          let samples ← Act.ofExcept (Sample.ofModel m u.pred u.args)
          pure (if positive.contains u.pred then samples else [])
        pure (some found.flatten)
      else pure none) (answer engine positive s c) := by
  intro ts s₁ log hs₁
  obtain ⟨model, satisfiable, hrun, hmodel⟩ := Session.runFrom_checkSat engine (s₁, log)
  refine ⟨ts, _, ?_, hs₁.counts model (s₁.checks + 1) satisfiable⟩
  rw [Act.runFrom_bind, hrun]
  unfold answer
  dsimp only at hmodel ⊢
  rw [hs₁.assertions] at hmodel ⊢
  cases hcheck : engine.check (s.assertions ++ ts) with
  | unknown => rw [hs₁.name]
  | unsat => rfl
  | sat m => exact runFrom_evaluate positive c m _ (hmodel m hcheck)

theorem both_bind {α : Type} (r r' : Except Fault (List Term))
    (f : List Term → Except Fault α) :
    (Session.both r r').bind f = r.bind fun us => r'.bind fun vs => f (us ++ vs) := by
  cases r with
  | error e => rfl
  | ok us => cases r' <;> rfl

/-- **A query is answered by the engine**, from the assertions of the session and its own formulas.
The session is as before. -/
theorem runFrom_query (engine : Engine) (positive : List Nat) (c : Clause) (args : List Term)
    (values : List Value) (s : Session) (log : Log) :
    ∃ s', (query engine positive c args values).runFrom (s, log) =
      ((constraints engine.callable s c args values).bind (answer engine positive s c), s', log) ∧
      s.Alike s' := by
  -- Side conditions, applications and equations are asserted in turn, and each adds its formulas.
  have hsides := Session.Asserts.forM (s := s) (l := c.terms) fun t _ =>
    Session.asserts_assertTerm t
  have happs := Session.Asserts.forM (s := s) (l := c.apps) fun a _ =>
    Session.asserts_assertApp engine.callable a.1 a.2 true
  have hpins := Session.Asserts.forM (s := s) (l := args.zip values) fun a _ =>
    asserts_pin s a.1 a.2
  have hall := (Session.asserts_declare (s := s) c.vars).answers (hsides.answers (happs.answers
    (hpins.answers (answers_ask engine positive s c))))
  obtain ⟨s', hrun, hs'⟩ := Session.runFrom_scope hall log
  refine ⟨s', hrun.trans ?_, hs'⟩
  unfold constraints
  simp only [both_bind, List.nil_append, List.append_assoc]
  rfl

/-! ### The formulas of a query -/

/-- What is collected in a loop comes from the items. -/
theorem mem_flatten_mapM {α β : Type} {l : List α} {g : α → Except Fault (List β)} {us : List β}
    (h : (l.mapM g).map List.flatten = .ok us) (u : β) :
    u ∈ us ↔ ∃ a ∈ l, ∃ vs, g a = .ok vs ∧ u ∈ vs := by
  cases hvss : l.mapM g with
  | error e =>
    rw [hvss] at h
    cases h
  | ok vss =>
    rw [hvss] at h
    cases h
    rw [List.mem_flatten]
    obtain ⟨hleft, hright⟩ := exists_of_forall₂ (mapM_eq_ok.1 hvss)
    constructor
    -- The items and what they give correspond place by place.
    · rintro ⟨vs, hvs, hu⟩
      obtain ⟨a, ha, hg⟩ := hright vs hvs
      exact ⟨a, ha, vs, hg, hu⟩
    · rintro ⟨a, ha, vs, hg, hu⟩
      obtain ⟨vs', hvs', hg'⟩ := hleft a ha
      obtain rfl := Except.ok.inj (hg.symm.trans hg')
      exact ⟨vs, hvs', hu⟩

theorem both_ok {r r' : Except Fault (List Term)} {us : List Term}
    (h : Session.both r r' = .ok us) : ∃ vs ws, r = .ok vs ∧ r' = .ok ws ∧ us = vs ++ ws := by
  obtain ⟨vs, hvs, h⟩ := bind_eq_ok.1 h
  obtain ⟨ws, hws, h⟩ := bind_eq_ok.1 h
  cases h
  exact ⟨vs, ws, hvs, hws, rfl⟩

/-- **The formulas that a query asserts.** -/
theorem mem_constraints {callable : Callable} {s : Session} {c : Clause} {args : List Term}
    {values : List Value} {ts : List Term} (h : constraints callable s c args values = .ok ts)
    (u : Term) :
    u ∈ ts ↔ (∃ t ∈ c.terms, ∃ vs, Session.formula t = .ok vs ∧ u ∈ vs) ∨
      (∃ a ∈ c.apps, ∃ vs, s.application callable a.1 a.2 true = .ok vs ∧ u ∈ vs) ∨
      ∃ a ∈ args.zip values, ∃ vs, pinned a.1 a.2 = .ok vs ∧ u ∈ vs := by
  obtain ⟨sides, rest, hsides, hrest, rfl⟩ := both_ok h
  obtain ⟨uses, pins, huses, hpins, rfl⟩ := both_ok hrest
  rw [List.mem_append, List.mem_append, mem_flatten_mapM hsides, mem_flatten_mapM huses,
    mem_flatten_mapM hpins]

/-- Every application on the left is asserted. -/
theorem exists_application_of_constraints {callable : Callable} {s : Session} {c : Clause}
    {args : List Term} {values : List Value} {ts : List Term}
    (h : constraints callable s c args values = .ok ts) {a : Nat × List Term} (ha : a ∈ c.apps) :
    ∃ vs, s.application callable a.1 a.2 true = .ok vs ∧ vs ⊆ ts := by
  obtain ⟨sides, rest, -, hrest, -⟩ := both_ok h
  obtain ⟨uses, -, huses, -, -⟩ := both_ok hrest
  cases hvss : c.apps.mapM fun a => s.application callable a.1 a.2 true with
  | error e =>
    rw [hvss] at huses
    cases huses
  | ok vss =>
    obtain ⟨vs, -, hvs⟩ := (exists_of_forall₂ (mapM_eq_ok.1 hvss)).1 a ha
    exact ⟨vs, hvs, fun u hu => (mem_constraints h u).2 (.inr (.inl ⟨a, ha, vs, hvs, hu⟩))⟩

/-- Only formulas are asserted. -/
theorem formula_ok {t : Term} {vs : List Term} (h : Session.formula t = .ok vs) :
    t.isBool = true ∧ vs = [t] := by
  unfold Session.formula at h
  split at h
  · next ht => exact ⟨ht, (Except.ok.inj h).symm⟩
  · cases h

/-- An application under the original signature is resolved to the expansion of the application to
the projected arguments. -/
theorem resolveApp_ok {callable : Callable} {name : String} {inst : Instance} {p : Nat}
    {args : List Term} {u : Term} (h : Session.resolveApp callable name inst p args true = .ok u) :
    ∃ q bs, inst.preds[p]? = some q ∧ args.length = q.originalSorts.length ∧
      Term.castAll? q.sorts (q.positions.map fun i => (args[i]?).getD .verum) = some bs ∧
      inst.expand (.fn q.symbol bs) callable = .ok u := by
  unfold Session.resolveApp at h
  rw [Instance.pred, atHandle_natCast] at h
  cases hq : inst.preds[p]? with
  | none =>
    rw [hq] at h
    cases h
  | some q =>
    rw [hq] at h
    -- The predicate is looked up, its arguments are projected, and the application is cast to its
    -- sorts.
    obtain ⟨as, has, h⟩ := bind_eq_ok.1 (show (Session.project name q args >>= _) = _ from h)
    dsimp only at h
    unfold Session.project at has
    split at has
    · next hlength =>
      cases has
      cases happ : q.symbol.app? (q.positions.map fun i => (args[i]?).getD .verum) with
      | none =>
        rw [happ] at h
        cases h
      | some t =>
        rw [happ] at h
        obtain ⟨bs, rfl, hbs⟩ := Symbol.app?_spec happ
        exact ⟨q, bs, rfl, hlength, hbs, h⟩
    · cases has

theorem application_ok {callable : Callable} {s : Session} {p : Nat} {args vs : List Term}
    (h : s.application callable p args true = .ok vs) :
    ∃ inst u, s.definitions = some inst ∧
      Session.resolveApp callable s.name inst p args true = .ok u ∧ u.isBool = true ∧
      vs = [u] := by
  unfold Session.application at h
  split at h
  · cases h
  · next inst hs =>
    obtain ⟨u, hu, h⟩ := bind_eq_ok.1 h
    obtain ⟨hbool, rfl⟩ := formula_ok h
    exact ⟨inst, u, hs, hu, hbool, rfl⟩

/-- The arguments that are projected and cast are of the sorts of the signature, and they mention
nothing that the given ones do not mention. -/
theorem projected_spec {inst : Instance} {q : Predicate} {args bs : List Term}
    (hbs : Term.castAll? q.sorts (q.positions.map fun i => (args[i]?).getD .verum) = some bs)
    (hw : ∀ a ∈ args, a.isWellSorted [] = true) (hfree : ∀ a ∈ args, ¬inst.Mentions a) :
    bs.map Term.sort = q.sorts ∧ (∀ b ∈ bs, b.isWellSorted [] = true) ∧
      ∀ b ∈ bs, ¬inst.Mentions b := by
  have hmem : ∀ t ∈ q.positions.map (fun i => (args[i]?).getD .verum), t ∈ args ∨ t = .verum := by
    intro t ht
    obtain ⟨i, -, rfl⟩ := List.mem_map.1 ht
    cases hi : args[i]? with
    | none => exact .inr rfl
    | some a => exact .inl (List.mem_of_getElem? hi)
  obtain ⟨hsorts, hsymbols, hwell⟩ := Term.castAll?_spec hbs
  refine ⟨hsorts, hwell [] fun t ht => ?_, ?_⟩
  · rcases hmem t ht with ht | rfl
    · exact hw t ht
    · rfl
  · -- A symbol of an argument is one of an argument that has been given.
    rintro b hb ⟨r, hr, hrb⟩
    have hflat : r.symbol ∈ bs.flatMap Term.symbols := List.mem_flatMap.2 ⟨b, hb, hrb⟩
    rw [hsymbols] at hflat
    obtain ⟨t, ht, hrt⟩ := List.mem_flatMap.1 hflat
    rcases hmem t ht with ht | rfl
    · exact hfree t ht ⟨r, hr, hrt⟩
    · cases hrt

/-- A pinned argument gives an equation with a literal of its sort. -/
theorem pinned_ok {arg : Term} {v : Value} {vs : List Term} (h : pinned arg v = .ok vs) :
    vs = [] ∨ ∃ l : Literal, v.toTerm arg.sort = .ok (.lit l) ∧ l.sort = arg.sort ∧
      vs = [.eq arg (.lit l)] := by
  unfold pinned pin at h
  split at h
  · exact .inl (Except.ok.inj h).symm
  · cases ht : v.toTerm arg.sort with
    | error e =>
      rw [ht] at h
      cases h
    | ok t =>
      rw [ht] at h
      obtain ⟨l, rfl, hl⟩ := Value.exists_lit_of_toTerm ht
      exact .inr ⟨l, rfl, hl, (Except.ok.inj h).symm⟩

/-! ### The samples of a model -/

/-- The samples that are made of argument lists have the values of the arguments. -/
theorem ofModel_ok {m : Model} {p : Int} {argss : List (List Term)} {samples : List Sample}
    (h : Sample.ofModel m p argss = .ok samples) :
    List.Forall₂ (fun args s => s.pred = p ∧
      List.Forall₂ (fun t v => Value.ofTerm (m.eval t) = .ok v) args s.args) argss samples := by
  refine (mapM_eq_ok.1 h).imp fun args s hs => ?_
  obtain ⟨values, hvalues, hs⟩ := bind_eq_ok.1 hs
  cases hs
  exact ⟨rfl, mapM_eq_ok.1 hvalues⟩

section Evaluated

variable {positive : List Nat} {c : Clause} {m : Model} {found : List Sample}

/-- All applications on the left have samples if those of positive predicates are to be recorded. -/
theorem exists_ofModel_of_evaluated (h : evaluated positive c m = .ok found) {u : Uses}
    (hu : u ∈ c.uses) : ∃ samples, Sample.ofModel m u.pred u.args = .ok samples := by
  unfold evaluated at h
  cases hfounds : c.uses.mapM fun u => (Sample.ofModel m u.pred u.args).map fun found =>
      if positive.contains u.pred then found else [] with
  | error e =>
    rw [hfounds] at h
    cases h
  | ok founds =>
    -- The loop has come to its end, so it has gone through `u`.
    obtain ⟨vs, -, hvs⟩ := (exists_of_forall₂ (mapM_eq_ok.1 hfounds)).1 u hu
    cases hsamples : Sample.ofModel m u.pred u.args with
    | error e =>
      rw [hsamples] at hvs
      cases hvs
    | ok samples => exact ⟨samples, rfl⟩

/-- Every application on the left has values under the model, also one of a predicate that is not
positive. -/
theorem exists_values_of_evaluated (h : evaluated positive c m = .ok found)
    {a : Nat × List Term} (ha : a ∈ c.apps) :
    ∃ values, List.Forall₂ (fun t v => Value.ofTerm (m.eval t) = .ok v) a.2 values := by
  obtain ⟨u, hu, ha⟩ := List.mem_flatMap.1 ha
  obtain ⟨args, hargs, rfl⟩ := List.mem_map.1 ha
  obtain ⟨samples, hsamples⟩ := exists_ofModel_of_evaluated h hu
  obtain ⟨s, -, -, hs⟩ := (exists_of_forall₂ (ofModel_ok hsamples)).1 args hargs
  exact ⟨s.args, hs⟩

/-- **The samples that are found** consist of the values of the arguments of the applications of
positive predicates on the left. -/
theorem mem_evaluated (h : evaluated positive c m = .ok found) (s : Sample) :
    s ∈ found ↔ ∃ a ∈ c.apps, a.1 ∈ positive ∧ s.pred = (a.1 : Int) ∧
      List.Forall₂ (fun t v => Value.ofTerm (m.eval t) = .ok v) a.2 s.args := by
  rw [mem_flatten_mapM h]
  constructor
  · rintro ⟨u, hu, vs, hvs, hs⟩
    obtain ⟨samples, hsamples⟩ := exists_ofModel_of_evaluated h hu
    rw [hsamples] at hvs
    obtain rfl := Except.ok.inj hvs
    split at hs
    · next hpositive =>
      obtain ⟨args, hargs, hpred, hvalues⟩ := (exists_of_forall₂ (ofModel_ok hsamples)).2 s hs
      exact ⟨(u.pred, args), List.mem_flatMap.2 ⟨u, hu, List.mem_map_of_mem hargs⟩,
        List.contains_iff_mem.1 hpositive, hpred, hvalues⟩
    · cases hs
  · rintro ⟨a, ha, hpositive, hpred, hvalues⟩
    obtain ⟨u, hu, ha⟩ := List.mem_flatMap.1 ha
    obtain ⟨args, hargs, rfl⟩ := List.mem_map.1 ha
    obtain ⟨samples, hsamples⟩ := exists_ofModel_of_evaluated h hu
    refine ⟨u, hu, samples, ?_, ?_⟩
    · rw [hsamples]
      exact congrArg Except.ok (if_pos (List.contains_iff_mem.2 hpositive))
    · -- The values of the arguments are unique.
      obtain ⟨s', hs', hpred', hvalues'⟩ := (exists_of_forall₂ (ofModel_ok hsamples)).1 args hargs
      have hargs' : s'.args = s.args := Except.ok.inj
        ((mapM_eq_ok (f := fun t => Value.ofTerm (m.eval t)).2 hvalues').symm.trans
          (mapM_eq_ok.2 hvalues))
      have heq : s' = s := by
        obtain ⟨pred, args⟩ := s
        obtain ⟨pred', args'⟩ := s'
        obtain rfl : args' = args := hargs'
        obtain rfl : pred' = pred := hpred'.trans hpred.symm
        rfl
      exact heq ▸ hs'

end Evaluated

/-! ### Sessions that agree -/

section Alike

variable {s s' : Session}

theorem constraints_congr (h : s.Alike s') (callable : Callable) (c : Clause) (args : List Term)
    (values : List Value) :
    constraints callable s' c args values = constraints callable s c args values := by
  unfold constraints Session.application
  rw [h.name, h.definitions]

theorem answer_congr (h : s.Alike s') (engine : Engine) (positive : List Nat) (c : Clause)
    (ts : List Term) : answer engine positive s' c ts = answer engine positive s c ts := by
  unfold answer
  rw [h.name, h.assertions]

end Alike

end Reconstruction
end Horn
