import Horn.Oracle.Session
import Horn.Proofs.Instance.Resolve
import Horn.Proofs.Instance.WellFormed

/-!
# Asserted applications

An application of a safe predicate is asserted in terms of definitions alone, as far as quantifiers
let it: the formula that `Session.assertApp` adds mentions a predicate exactly if the definition
retains one under a quantifier (`Session.assertApp_mentions`). Definitions that apply predicates
outside of quantified formulas only retain none (`Instance.not_retains_of_inner`).

Arguments under the original signature are projected first; what has been accepted as a signature is
a projection (`Predicate.isProjection_of_make`).
-/

namespace Horn

/-! ### Projections -/

namespace Predicate

/-- Every current argument stands at an original position of its sort. -/
def IsProjection (q : Predicate) : Prop := q.positions.map (q.originalSorts[·]?) = q.sorts.map some

instance (q : Predicate) : Decidable q.IsProjection :=
  inferInstanceAs (Decidable (q.positions.map (q.originalSorts[·]?) = q.sorts.map some))

/-- A projection has a position for each argument. -/
theorem IsProjection.length {q : Predicate} (h : q.IsProjection) :
    q.positions.length = q.sorts.length := by
  simpa using congrArg List.length h

/-- The positions of a projection are those of arguments of the original signature. -/
theorem IsProjection.lt {q : Predicate} (h : q.IsProjection) :
    ∀ i ∈ q.positions, i < q.originalSorts.length := by
  intro i hi
  have hmem : q.originalSorts[i]? ∈ q.sorts.map some := h ▸ List.mem_map_of_mem hi
  obtain ⟨s, -, hs⟩ := List.mem_map.1 hmem
  exact (List.getElem?_eq_some_iff.1 hs.symm).1

/-- Positions that pass the check have the sorts that they should have. -/
theorem checkPositions_ok {name : String} {original : List TermSort} {i : Nat}
    {sorts : List TermSort} {given : List Int} {positions : List Nat}
    (h : checkPositions name original i sorts given = .ok positions)
    (hlength : given.length = sorts.length) :
    positions.map (original[·]?) = sorts.map some := by
  induction sorts generalizing i given positions with
  | nil =>
    obtain rfl := List.length_eq_zero_iff.1 hlength
    cases h
    rfl
  | cons s sorts ih =>
    cases given with
    | nil => cases hlength
    | cons old given =>
      rw [checkPositions] at h
      -- The position is outside of the original signature, or of another sort, or right.
      split at h
      · cases h
      · split at h
        · cases h
        · next hsort =>
          cases hrest : checkPositions name original (i + 1) sorts given with
          | error e =>
            rw [hrest] at h
            cases h
          | ok rest =>
            rw [hrest] at h
            cases h
            rw [List.map_cons, List.map_cons, not_not.1 hsort, ih hrest (Nat.succ.inj hlength)]

/-- What is accepted as a signature is a projection. -/
theorem isProjection_of_make {name : String} {sorts : List TermSort}
    {original : Option (List TermSort)} {positions : Option (List Int)} {q : Predicate}
    (h : make name sorts original positions = .ok q) : q.IsProjection := by
  obtain ⟨given, checked, hlength, hchecked, rfl⟩ := make_ok h
  exact checkPositions_ok hchecked hlength

/-- The sorts of the arguments, under the original or under the current signature. -/
def argSorts (q : Predicate) (original : Bool) : List TermSort :=
  if original then q.originalSorts else q.sorts

end Predicate

namespace Session

/-- The arguments that are projected have the sorts of the current signature. -/
theorem project_ok (name : String) {q : Predicate} (hq : q.IsProjection) {args : List Term}
    (hs : args.map Term.sort = q.originalSorts) :
    ∃ bs, project name q args = .ok bs ∧ bs.map Term.sort = q.sorts ∧ bs ⊆ args := by
  have hlength : args.length = q.originalSorts.length := by rw [← hs, List.length_map]
  -- Every position is the one of an argument.
  have hget : ∀ i ∈ q.positions, ∃ a, args[i]? = some a := by
    intro i hi
    have hmem : q.originalSorts[i]? ∈ q.sorts.map some := hq ▸ List.mem_map_of_mem hi
    obtain ⟨s, -, hs'⟩ := List.mem_map.1 hmem
    rw [← hs, List.getElem?_map] at hs'
    obtain ⟨a, ha, -⟩ := Option.map_eq_some_iff.1 hs'.symm
    exact ⟨a, ha⟩
  refine ⟨_, if_pos hlength, ?_, ?_⟩
  · -- It is enough to compare the sorts as optional ones, as projections are given.
    have hinj : Function.Injective (List.map (some : TermSort → Option TermSort)) :=
      List.map_injective_iff.2 (Option.some_injective _)
    apply hinj
    rw [← hq, List.map_map, List.map_map]
    refine List.map_congr_left fun i hi => ?_
    obtain ⟨a, ha⟩ := hget i hi
    rw [Function.comp_apply, Function.comp_apply, ha, ← hs, List.getElem?_map, ha]
    rfl
  · intro b hb
    obtain ⟨i, hi, rfl⟩ := List.mem_map.1 hb
    obtain ⟨a, ha⟩ := hget i hi
    rw [ha]
    exact List.mem_of_getElem? ha

variable {inst : Instance}

/-- What asserting an application amounts to is the expansion of the application to the projected
arguments. -/
theorem resolveApp_eq (callable : Callable) {p : Nat} {q : Predicate} (hq : inst.preds[p]? = some q)
    (hproj : q.IsProjection) {args : List Term} {original : Bool}
    (hs : args.map Term.sort = q.argSorts original) (name : String) :
    ∃ bs, resolveApp callable name inst p args original =
        inst.expand (.fn q.symbol bs) callable ∧ bs.map Term.sort = q.sorts ∧ bs ⊆ args := by
  have hpred : inst.pred p = .ok q := by rw [Instance.pred, atHandle_natCast, hq]
  -- The arguments fit already, so no coercion is inserted.
  have happ : ∀ bs : List Term, bs.map Term.sort = q.sorts →
      q.symbol.app? bs = some (.fn q.symbol bs) := by
    intro bs hbs
    rw [Symbol.app?, Predicate.symbol, ← hbs, Term.castAll?_self]
    rfl
  cases original with
  | false =>
    refine ⟨args, ?_, hs, List.Subset.refl _⟩
    unfold resolveApp
    simp only [hpred, bind, ok_bind, Bool.false_eq_true, if_false, pure, Except.pure,
      happ args hs]
  | true =>
    -- Under the original signature the arguments are projected first.
    obtain ⟨bs, hbs, hsorts, hsub⟩ := project_ok name hproj hs
    refine ⟨bs, ?_, hsorts, hsub⟩
    unfold resolveApp
    simp only [hpred, hbs, bind, ok_bind, if_true, happ bs hsorts]

/-- A formula is asserted last. -/
theorem runFrom_assertTerm {t : Term} (ht : t.isBool = true) (w : World Session) :
    ∃ s', (assertTerm t).runFrom w = (.ok (), s', w.2) ∧
      s'.assertions = w.1.assertions ++ [t] := by
  unfold assertTerm
  rw [if_pos ht]
  refine ⟨_, rfl, ?_⟩
  -- It goes to the innermost scope, which is the base unless one has been pushed.
  cases h : w.1.inner with
  | nil => simp [assertions, scopes, modifyTop, h]
  | cons top rest => simp [assertions, scopes, modifyTop, h]

/-- **Asserted applications of safe predicates.** Let the definitions fit the predicates of the
instance, and let the arguments fit the signature and mention no predicate. Then asserting an
application of a safe predicate adds a formula, and that mentions no predicate at any depth exactly
if the definition retains none under a quantifier. The call only fails if the engine refuses to
build an application anew, and then it leaves the session as it was. -/
theorem assertApp_mentions (hn : DistinctNames inst.preds) (hfit : inst.FittingDefinitions)
    {p : Nat} (hp : p ∈ inst.safePredicates) {q : Predicate} (hq : inst.preds[p]? = some q)
    (hproj : q.IsProjection) {d : Definition} (hd : q.definition = some d) {args : List Term}
    {original : Bool} (hs : args.map Term.sort = q.argSorts original)
    (hw : ∀ a ∈ args, a.isWellSorted [] = true) (hfree : ∀ a ∈ args, inst.predsIn a = [])
    {s : Session} (hdefs : s.definitions = some inst) (callable : Callable) :
    ((assertApp p args original callable).exec s = (.error .illSorted, s, []) ∧
        ¬callable.Reapplies) ∨
      ∃ t s', (assertApp p args original callable).exec s = (.ok (), s', []) ∧
        s'.assertions = s.assertions ++ [t] ∧
        (inst.predsIn t = [] ↔ ¬inst.Retains d.params none d.body) := by
  obtain ⟨bs, hres, hsorts, hsub⟩ := resolveApp_eq callable hq hproj hs s.name
  have hexec : (assertApp p args original callable).exec s =
      ((Act.ofExcept (inst.expand (.fn q.symbol bs) callable) >>= assertTerm).runFrom (s, [])) := by
    rw [Act.exec_eq]
    unfold assertApp
    rw [Act.runFrom_bind_of_ok (Act.runFrom_get _)]
    dsimp only
    rw [hdefs]
    dsimp only
    rw [hres]
  -- The projected arguments are among the given ones, so they mention nothing either.
  have hexpand : ∀ {callable : Callable}, callable.Reapplies → _ := fun hcall =>
    inst.expand_safe hcall hn hfit hp hq hd hsorts (fun b hb => hw b (hsub hb))
      fun b hb hmem => Instance.mentions_iff.1 hmem (hfree b (hsub hb))
  obtain ⟨t, ht, hform, hment⟩ := hexpand Callable.reapplies_any
  rcases inst.expand_unlessRefused callable (.fn q.symbol bs) with h | h
  · -- The expansion succeeds, and what it gives is a formula.
    obtain ⟨s', hrun, hassert⟩ := runFrom_assertTerm hform.isBool (s, [])
    refine .inr ⟨t, s', ?_, hassert, ?_⟩
    · rw [hexec, h, ht, Act.runFrom_bind_of_ok (Act.runFrom_ofExcept _ _)]
      exact hrun
    · rw [← hment, Instance.mentions_iff, not_not]
  · refine .inl ⟨?_, fun hcall => ?_⟩
    · rw [hexec, h]
      rfl
    · obtain ⟨u, hu, -⟩ := hexpand hcall
      rw [h] at hu
      cases hu

/-- A new session with the definitions of an instance. -/
def defining (inst : Instance) : Session := { create "session" none with definitions := some inst }

/-- The predicate `Q` of positive numbers, and `P`, the numbers that are not in `Q`; `P` has lost a
first argument. -/
def layered : Instance where
  name := "layered"
  preds := [
    ⟨"Q", [.int], [.int], [0],
      some ⟨[⟨"Q!0", .int⟩], .op .gt [.const ⟨"Q!0", .int⟩, .int 0]⟩⟩,
    ⟨"P", [.int], [.bool, .int], [1],
      some ⟨[⟨"P!0", .int⟩], .neg (.fn ⟨"Q", [.int], .bool⟩ [.const ⟨"P!0", .int⟩])⟩⟩]
  clauses := []
  users := [[], []]
  producers := [[], []]
  holders := 0
  expansions := []

/-- An application of `P` under its original signature is resolved. -/
theorem assertApp_layered :
    ∃ t s', (assertApp 1 [.verum, .int 3] true).exec (defining layered) = (.ok (), s', []) ∧
      s'.assertions = [t] ∧ layered.predsIn t = [] := by
  have hp : 1 ∈ layered.safePredicates := by decide
  have hs : [Term.verum, Term.int 3].map Term.sort = layered.preds[1].argSorts true := rfl
  have hdefs : (defining layered).definitions = some layered := rfl
  rcases assertApp_mentions (by decide) (by decide) hp rfl (by decide) rfl hs (by decide)
    (by decide) hdefs .any with ⟨-, h⟩ | ⟨t, s', hrun, hassert, hiff⟩
  · exact absurd Callable.reapplies_any h
  · exact ⟨t, s', hrun, hassert, hiff.2 (Instance.not_retains_of_inner (by decide) (by decide))⟩

/-- The predicate `Q`, which is false of all integers, and `P`, defined by `∃ x, Q(x)`. -/
def hidden : Instance where
  name := "hidden"
  preds := [
    ⟨"Q", [.int], [.int], [0], some ⟨[⟨"Q!0", .int⟩], .falsum⟩⟩,
    ⟨"P", [], [], [],
      some ⟨[], .quant .some [⟨"x", .int⟩] (.fn ⟨"Q", [.int], .bool⟩ [.bound 0 .int])⟩⟩]
  clauses := []
  users := [[], []]
  producers := [[], []]
  holders := 0
  expansions := []

/-- Both predicates of `hidden` are safe, and an application of `P` is asserted as a formula that
mentions `Q`. -/
theorem assertApp_hidden :
    DistinctNames hidden.preds ∧ hidden.FittingDefinitions ∧
      (∀ q ∈ hidden.preds, q.IsProjection) ∧ hidden.safePredicates = [0, 1] ∧
      ∃ t s', (assertApp 1 [] false).exec (defining hidden) = (.ok (), s', []) ∧
        s'.assertions = [t] ∧ hidden.predsIn t = [0] :=
  ⟨by decide, by decide, by decide, by decide, _, _, rfl, rfl, by decide⟩

end Session
end Horn
