import Horn.Proofs.Oracle.Scope
import Horn.Proofs.Oracle.Stacks
import Mathlib.Data.List.Infix

/-!
# Scopes and levels

What is run in a scope leaves the stacks as they were, and what is declared is known as long as its
level is open.

* `Session.Confined`: computations that are made of operations on the innermost scope and of scopes
  of their own. They may look at the session, depend on what they have seen, fail at any point, and
  go on after a failure. `Confined.outer` is the run lemma: the scopes around the innermost one are
  never touched. So closing the scope restores the session.
* Raw operations open and close levels in any order, also without a match. `Session.depth` counts
  the levels, and `Session.DeclaredAt` tells from the operations alone whether a variable has been
  declared in a level that is still open. `declaredAt_concat` and `hasAt_onLevels` are the step
  lemmas: one operation changes the one as it changes the levels of the session.
* `Session.scopes_restored` is the result.
-/

namespace Horn
namespace Session

variable {α β : Type}

/-! ### What is done in a scope -/

/-- The computation is made of operations on the innermost scope and of scopes of their own. -/
inductive Confined : {α : Type} → Act Session α → Prop
  | ofExcept {α : Type} (r : Except Fault α) : Confined (Act.ofExcept r)
  | read : Confined (get : Act Session Session)
  | write (record : Log.Record) : Confined (Act.write record)
  | declare (constants : List Term) : Confined (declare constants)
  | writeDefinitions (inst : Instance) : Confined (writeDefinitions inst)
  | assertTerm (t : Term) : Confined (assertTerm t)
  | assertApp (pred : Int) (args : List Term) (original : Bool) (callable : Callable) :
    Confined (assertApp pred args original callable)
  | checkSat (engine : Engine) : Confined (checkSat engine)
  | getModel : Confined getModel
  | bind {α β : Type} {act : Act Session α} {next : α → Act Session β} :
    Confined act → (∀ a, Confined (next a)) → Confined (act >>= next)
  | attempt {α : Type} {act : Act Session α} : Confined act → Confined (Act.attempt act)
  | scope {α : Type} {act : Act Session α} : Confined act → Confined (scope act)

/-- The scopes around the innermost one. -/
def outer (s : Session) : List Scope := s.scopes.tail

theorem outer_modifyTop (f : Scope → Scope) (s : Session) : (modifyTop f s).outer = s.outer := by
  obtain ⟨name, timeout, _ | ⟨top, inner⟩, base, definitions, model, checks, satisfiable⟩ := s
  · rfl
  · rfl

/-- If all scopes of `s` are around the innermost one of `s₁`, that one is the only new scope. -/
theorem inner_of_outer {s s₁ : Session} (h : s₁.outer = s.scopes) :
    ∃ top, s₁.inner = top :: s.inner ∧ s₁.base = s.base := by
  unfold outer scopes at h
  cases hinner : s₁.inner with
  | nil =>
    rw [hinner] at h
    exact absurd h.symm (List.append_ne_nil_of_right_ne_nil _ (List.cons_ne_nil _ _))
  | cons top inner =>
    rw [hinner, List.cons_append, List.tail_cons] at h
    obtain ⟨hscopes, hbase⟩ := List.append_inj' h rfl
    exact ⟨top, by rw [hscopes], List.singleton_inj.1 hbase⟩

/-- Closing a scope around which nothing has changed restores the session. -/
theorem runFrom_scope_of_outer {act : Act Session α} {s : Session} {log : Log}
    (h : (act.runFrom (push.runFrom (s, log)).2).2.1.outer = s.scopes) :
    ∃ s', (scope act).runFrom (s, log) =
        ((act.runFrom (push.runFrom (s, log)).2).1, s',
          (act.runFrom (push.runFrom (s, log)).2).2.2) ∧
      s'.inner = s.inner ∧ s'.base = s.base := by
  obtain ⟨top, hinner, hbase⟩ := inner_of_outer h
  exact ⟨_, runFrom_scope_of_inner rfl hinner, rfl, hbase⟩

theorem outer_declare (constants : List Term) (s : Session) (log : Log) :
    ((declare constants).runFrom (s, log)).2.1.outer = s.outer := by
  induction constants generalizing s with
  | nil => rfl
  | cons t constants ih =>
    unfold declare at ih ⊢
    rw [List.forM_eq_forM, List.forM_cons]
    by_cases ht : isConstant t
    · rw [if_pos ht, Act.runFrom_bind_of_ok (Act.runFrom_modify _ _)]
      exact (ih _).trans (outer_modifyTop _ s)
    · rw [if_neg ht]
      rfl

theorem outer_assertTerm (t : Term) (s : Session) (log : Log) :
    ((assertTerm t).runFrom (s, log)).2.1.outer = s.outer := by
  unfold assertTerm
  split
  · exact outer_modifyTop _ s
  · rfl

/-- **Confined computations leave the scopes around the innermost one alone,** whether they succeed
or fail. -/
theorem Confined.outer {act : Act Session α} (h : Confined act) (s : Session) (log : Log) :
    (act.runFrom (s, log)).2.1.outer = s.outer := by
  induction h generalizing s log with
  | ofExcept => rfl
  | read => rfl
  | write => rfl
  | declare constants => exact outer_declare constants s log
  | writeDefinitions inst =>
    unfold Session.writeDefinitions
    rw [Act.runFrom_bind_of_ok (Act.runFrom_get _)]
    dsimp only
    split
    · rfl
    · rfl
  | assertTerm t => exact outer_assertTerm t s log
  | assertApp pred args original callable =>
    unfold Session.assertApp
    rw [Act.runFrom_bind_of_ok (Act.runFrom_get _)]
    dsimp only
    cases s.definitions with
    | none => rfl
    | some inst =>
      dsimp only
      cases resolveApp callable s.name inst pred args original with
      | error e => rfl
      | ok t => exact outer_assertTerm t s log
  | checkSat engine =>
    obtain ⟨model, satisfiable, hrun, -⟩ := runFrom_checkSat engine (s, log)
    rw [hrun]
    rfl
  | getModel =>
    unfold Session.getModel
    rw [Act.runFrom_bind_of_ok (Act.runFrom_get _)]
    dsimp only
    cases s.model with
    | none => rfl
    | some m => rfl
  | @bind α β act next _ _ ih ihnext =>
    have hact := ih s log
    rw [Act.runFrom_bind]
    generalize act.runFrom (s, log) = x at hact
    obtain ⟨_ | a, s₁, log₁⟩ := x
    · exact hact
    · exact (ihnext a s₁ log₁).trans hact
  | attempt _ ih => exact ih s log
  | @scope α act _ ih =>
    -- What is around the new scope are all the old ones.
    have hbody : (act.runFrom (push.runFrom (s, log)).2).2.1.outer = s.scopes :=
      ih (push.runFrom (s, log)).2.1 log
    obtain ⟨s', hrun, hinner, hbase⟩ := runFrom_scope_of_outer hbody
    rw [hrun]
    unfold Session.outer scopes
    rw [hinner, hbase]

/-- **A scope restores the session** in which it has been opened, and answers as its body does. -/
theorem Confined.runFrom_scope {act : Act Session α} (h : Confined act) (s : Session) (log : Log) :
    ∃ s', (Session.scope act).runFrom (s, log) =
        ((act.runFrom (push.runFrom (s, log)).2).1, s',
          (act.runFrom (push.runFrom (s, log)).2).2.2) ∧
      s'.inner = s.inner ∧ s'.base = s.base :=
  runFrom_scope_of_outer (h.outer (push.runFrom (s, log)).2.1 log)

/-! ### The levels of a session -/

/-- With one level only there is no scope to close. -/
theorem runFrom_pop_of_levels {s : Session} (h : s.apart.levels.length = 1) (log : Log) :
    TwoStacks.pop.runFrom (s.apart, log) =
      (.error (.popUnmatched s.apart.name), s.apart, log) ∧
    pop.runFrom (s, log) = (.error (.popUnmatched s.name), s, log) := by
  -- One level means that no scope is open.
  have hinner : s.inner = [] := by
    rw [s.length_levels, Nat.add_eq_right, List.length_eq_zero_iff] at h
    exact List.map_eq_nil_iff.1 h
  have hpop : pop.runFrom (s, log) = (.error (.popUnmatched s.name), s, log) := by
    unfold pop
    rw [Act.runFrom_bind_of_ok (Act.runFrom_get _)]
    dsimp only
    rw [hinner]
    rfl
  refine ⟨?_, hpop⟩
  rw [mirrors_pop s log, hpop]
  rfl

/-- The operation is one on its own, not a scope with what is done in it. -/
def Operation.IsRaw : Operation → Prop
  | .scope _ => False
  | _ => True

/-- What a raw operation does to the levels. -/
def Operation.onLevels : Operation → List (List Term) → List (List Term)
  | .declare constants, level :: levels => (level ++ constants.takeWhile isConstant) :: levels
  | .push, levels => [] :: levels
  | .pop, _ :: level :: levels => level :: levels
  | .reset, _ => [[]]
  | _, levels => levels

theorem levels_modifyTop {f : Scope → Scope} {g : List Term → List Term}
    (hf : ∀ scope, (f scope).declared = g scope.declared) {s : Session} {level : List Term}
    {levels : List (List Term)} (hs : s.apart.levels = level :: levels) :
    (modifyTop f s).apart.levels = g level :: levels := by
  obtain ⟨name, timeout, _ | ⟨top, inner⟩, base, definitions, model, checks, satisfiable⟩ := s
  · obtain ⟨rfl, rfl⟩ := List.cons.inj hs
    show [(f base).declared] = [g base.declared]
    rw [hf]
  · obtain ⟨rfl, rfl⟩ := List.cons.inj hs
    show (f top).declared :: (inner ++ [base]).map (·.declared) =
      g top.declared :: (inner ++ [base]).map (·.declared)
    rw [hf]

theorem exists_levels (s : Session) : ∃ level levels, s.apart.levels = level :: levels :=
  List.exists_cons_of_length_eq_add_one s.length_levels

theorem levels_declare (constants : List Term) (s : Session) (log : Log) :
    ((declare constants).runFrom (s, log)).2.1.apart.levels =
      (Operation.declare constants).onLevels s.apart.levels := by
  induction constants generalizing s with
  | nil =>
    obtain ⟨level, levels, hs⟩ := s.exists_levels
    show s.apart.levels = _
    rw [hs, Operation.onLevels, List.takeWhile_nil, List.append_nil]
  | cons t constants ih =>
    obtain ⟨level, levels, hs⟩ := s.exists_levels
    unfold declare at ih ⊢
    rw [List.forM_eq_forM, List.forM_cons]
    by_cases ht : isConstant t
    · rw [if_pos ht, Act.runFrom_bind_of_ok (Act.runFrom_modify _ _)]
      refine (ih _).trans ?_
      rw [levels_modifyTop (g := fun l => l ++ [t]) (fun _ => rfl) hs, hs, Operation.onLevels,
        Operation.onLevels, List.takeWhile_cons_of_pos ht, List.append_assoc, List.singleton_append]
    · -- The first term that is no constant ends it all.
      rw [if_neg ht, hs, Operation.onLevels, List.takeWhile_cons_of_neg ht, List.append_nil]
      exact hs

theorem levels_assertTerm (t : Term) (s : Session) (log : Log) :
    ((assertTerm t).runFrom (s, log)).2.1.apart.levels = s.apart.levels := by
  obtain ⟨level, levels, hs⟩ := s.exists_levels
  unfold assertTerm
  split
  · rw [hs]
    exact levels_modifyTop (f := fun scope => { scope with
      assertions := scope.assertions ++ [t] }) (g := id) (fun _ => rfl) hs
  · rfl

/-- An answer that is only renamed. -/
theorem state_bind_pure (act : Act Session α) (f : α → β) (w : World Session) :
    ((act >>= fun a => pure (f a)).runFrom w).2 = (act.runFrom w).2 := by
  rw [bind_pure_comp, Act.runFrom_map]

/-- **The levels after a raw operation,** whether or not it fails. -/
theorem levels_act (engines : Option Int → Engine) {op : Operation} (hraw : op.IsRaw)
    (s : Session) : ((op.act engines).exec s).2.1.apart.levels = op.onLevels s.apart.levels := by
  rw [Act.exec_eq]
  cases op with
  | declare constants =>
    rw [Operation.act, state_bind_pure]
    exact levels_declare constants s []
  | isDeclared t => rfl
  | writeDefinitions inst =>
    rw [Operation.act, state_bind_pure]
    unfold writeDefinitions
    rw [Act.runFrom_bind_of_ok (Act.runFrom_get _)]
    dsimp only
    split
    · rfl
    · rfl
  | assertTerm t =>
    rw [Operation.act, state_bind_pure]
    exact levels_assertTerm t s []
  | assertApp pred args original =>
    rw [Operation.act, Act.runFrom_bind_of_ok (Act.runFrom_get _), state_bind_pure]
    unfold assertApp
    rw [Act.runFrom_bind_of_ok (Act.runFrom_get _)]
    dsimp only
    cases s.definitions with
    | none => rfl
    | some inst =>
      dsimp only
      cases resolveApp (engines s.timeout).callable s.name inst pred args original with
      | error e => rfl
      | ok t => exact levels_assertTerm t s []
  | push => rfl
  | pop =>
    rw [Operation.act, state_bind_pure]
    obtain ⟨name, timeout, _ | ⟨top, inner⟩, base, definitions, model, checks, satisfiable⟩ := s
    · rfl
    -- Below the scope that is closed there is a level at least, the one at the base.
    · obtain ⟨level, levels, hlevels⟩ := exists_levels
        ⟨name, timeout, inner, base, definitions, none, checks, satisfiable⟩
      show (inner ++ [base]).map (·.declared) =
        Operation.onLevels .pop (top.declared :: (inner ++ [base]).map (·.declared))
      rw [show (inner ++ [base]).map (·.declared) = level :: levels from hlevels]
      rfl
  | scope body => exact hraw.elim
  | checkSat =>
    rw [Operation.act, Act.runFrom_bind_of_ok (Act.runFrom_get _), state_bind_pure]
    -- A query counts and keeps its model, but touches no scope.
    obtain ⟨model, satisfiable, hrun, -⟩ := runFrom_checkSat (engines s.timeout) (s, [])
    rw [hrun]
    rfl
  | getModel =>
    rw [Operation.act, state_bind_pure]
    unfold getModel
    rw [Act.runFrom_bind_of_ok (Act.runFrom_get _)]
    dsimp only
    cases s.model with
    | none => rfl
    | some m => rfl
  | reset => rfl

/-- The levels of a new session after some raw operations. -/
def levels (ops : List Operation) : List (List Term) :=
  ops.foldl (fun levels op => op.onLevels levels) [[]]

theorem levels_concat (ops : List Operation) (op : Operation) :
    levels (ops ++ [op]) = op.onLevels (levels ops) := List.foldl_append

theorem levels_afterAll (engines : Option Int → Engine) (name : String) (timeout : Option Int)
    {ops : List Operation} (hraw : ∀ op ∈ ops, op.IsRaw) :
    (afterAll engines (create name timeout) ops).apart.levels = levels ops := by
  induction ops using List.reverseRecOn with
  | nil => rfl
  | append_singleton ops op ih =>
    rw [List.forall_mem_append, List.forall_mem_singleton] at hraw
    rw [afterAll_concat, levels_act engines hraw.2, ih hraw.1, levels_concat]

/-! ### Counting levels -/

/-- The number of open scopes after a raw operation, if `d` scopes have been open. -/
def Operation.height (d : Nat) : Operation → Nat
  | .push => d + 1
  | .pop => d - 1
  | .reset => 0
  | _ => d

/-- The number of scopes that some raw operations leave open. -/
def depth (ops : List Operation) : Nat := ops.foldl Operation.height 0

theorem depth_concat (ops : List Operation) (op : Operation) :
    depth (ops ++ [op]) = op.height (depth ops) := List.foldl_append

theorem length_onLevels (op : Operation) (level : List Term) (levels : List (List Term)) :
    (op.onLevels (level :: levels)).length = op.height levels.length + 1 := by
  cases op with
  | pop =>
    cases levels with
    | nil => rfl
    | cons level' levels => rfl
  | _ => rfl

theorem length_levels_eq (ops : List Operation) : (levels ops).length = depth ops + 1 := by
  induction ops using List.reverseRecOn with
  | nil => rfl
  | append_singleton ops op ih =>
    obtain ⟨level, rest, hlevels⟩ := List.exists_cons_of_length_eq_add_one ih
    rw [hlevels, List.length_cons, Nat.add_right_cancel_iff] at ih
    rw [levels_concat, depth_concat, hlevels, length_onLevels, ih]

/-! ### What is declared -/

/-- The variable is declared at the level with `d` levels below it. -/
def HasAt (d : Nat) (t : Term) : List (List Term) → Prop
  | [] => False
  | level :: levels => (d = levels.length ∧ t ∈ level) ∨ HasAt d t levels

theorem HasAt.lt {d : Nat} {t : Term} {levels : List (List Term)} (h : HasAt d t levels) :
    d < levels.length := by
  induction levels with
  | nil => exact h.elim
  | cons level levels ih =>
    rw [List.length_cons]
    rcases h with ⟨rfl, -⟩ | h
    · exact Nat.lt_succ_self _
    · exact Nat.lt_succ_of_lt (ih h)

theorem exists_hasAt_iff {t : Term} {levels : List (List Term)} :
    (∃ d, HasAt d t levels) ↔ ∃ level ∈ levels, t ∈ level := by
  induction levels with
  | nil =>
    constructor
    · rintro ⟨_, h⟩
      exact h.elim
    · rintro ⟨_, h, -⟩
      cases h
  | cons level levels ih =>
    rw [List.exists_mem_cons_iff, ← ih]
    constructor
    · rintro ⟨d, ⟨-, h⟩ | h⟩
      · exact .inl h
      · exact .inr ⟨d, h⟩
    · rintro (h | ⟨d, h⟩)
      -- The number of a level is that of the levels below it.
      · exact ⟨levels.length, .inl ⟨rfl, h⟩⟩
      · exact ⟨d, .inr h⟩

/-- **One operation.** What is declared at a level stays as long as the level is open, and only a
declaration adds to the current one. -/
theorem hasAt_onLevels {d : Nat} {t : Term} (op : Operation) (level : List Term)
    (levels : List (List Term)) :
    HasAt d t (op.onLevels (level :: levels)) ↔
      (HasAt d t (level :: levels) ∧ op ≠ .reset ∧ d ≤ op.height levels.length) ∨
        ∃ constants, op = .declare constants ∧ t ∈ constants.takeWhile isConstant ∧
          d = levels.length := by
  -- What is declared at all is declared at a level that is open.
  have hstay : HasAt d t (level :: levels) → d ≤ levels.length := fun h => Nat.le_of_lt_succ h.lt
  cases op with
  | declare constants =>
    simp only [Operation.onLevels, HasAt, List.mem_append, Operation.height] at hstay ⊢
    grind
  | push =>
    simp only [Operation.onLevels, HasAt, Operation.height] at hstay ⊢
    grind
  | pop =>
    cases levels with
    | nil =>
      simp only [Operation.onLevels, HasAt, Operation.height] at hstay ⊢
      grind
    | cons level' levels =>
      have hlt : HasAt d t (level' :: levels) → d ≤ levels.length :=
        fun h => Nat.le_of_lt_succ h.lt
      simp only [Operation.onLevels, HasAt, Operation.height] at hstay hlt ⊢
      grind
  | reset =>
    simp only [Operation.onLevels, HasAt]
    grind
  | _ =>
    simp only [Operation.onLevels, HasAt, Operation.height] at hstay ⊢
    grind

/-- The variable is declared with `d` scopes open, and since then the session has not been reset and
its level has stayed open: there have been `d` open scopes at least. -/
def DeclaredAt (d : Nat) (t : Term) (ops : List Operation) : Prop :=
  ∃ before constants after, ops = before ++ .declare constants :: after ∧ depth before = d ∧
    t ∈ constants.takeWhile isConstant ∧ .reset ∉ after ∧
    ∀ later, later <+: after → d ≤ depth (before ++ .declare constants :: later)

/-- **One operation more.** The declarations that count change as the levels do. -/
theorem declaredAt_concat {d : Nat} {t : Term} (ops : List Operation) (op : Operation) :
    DeclaredAt d t (ops ++ [op]) ↔
      (DeclaredAt d t ops ∧ op ≠ .reset ∧ d ≤ op.height (depth ops)) ∨
        ∃ constants, op = .declare constants ∧ t ∈ constants.takeWhile isConstant ∧
          d = depth ops := by
  constructor
  · rintro ⟨before, constants, after, heq, hd, ht, hreset, hlater⟩
    -- The operation is the declaration itself, or it comes after it.
    rcases List.eq_nil_or_concat after with rfl | ⟨after, op', rfl⟩
    · obtain ⟨rfl, hop⟩ := List.append_inj' heq rfl
      exact .inr ⟨constants, List.singleton_inj.1 hop, ht, hd.symm⟩
    · rw [List.concat_eq_append] at heq hreset hlater
      rw [← List.cons_append, ← List.append_assoc] at heq
      obtain ⟨rfl, hop⟩ := List.append_inj' heq rfl
      obtain rfl := List.singleton_inj.1 hop
      rw [List.mem_append, List.mem_singleton, not_or] at hreset
      refine .inl ⟨⟨before, constants, after, rfl, hd, ht, hreset.1, fun later h => ?_⟩,
        Ne.symm hreset.2, ?_⟩
      · exact hlater later (h.trans (List.prefix_append after [op]))
      · have hlast := hlater _ List.prefix_rfl
        rwa [← List.cons_append, ← List.append_assoc, depth_concat] at hlast
  · rintro (⟨⟨before, constants, after, rfl, hd, ht, hreset, hlater⟩, hop, hheight⟩ |
      ⟨constants, rfl, ht, rfl⟩)
    · refine ⟨before, constants, after ++ [op], ?_, hd, ht, ?_, fun later h => ?_⟩
      · rw [List.append_assoc, List.cons_append]
      · rw [List.mem_append, List.mem_singleton, not_or]
        exact ⟨hreset, Ne.symm hop⟩
      · rcases List.prefix_concat_iff.1 h with rfl | h
        · rwa [← List.cons_append, ← List.append_assoc, depth_concat]
        · exact hlater later h
    · refine ⟨ops, constants, [], rfl, rfl, ht, List.not_mem_nil, fun later h => ?_⟩
      rw [List.prefix_nil.1 h, depth_concat]
      exact le_rfl

/-- **The run lemma.** The declarations that count are those in the levels. -/
theorem declaredAt_iff {d : Nat} {t : Term} {ops : List Operation} :
    DeclaredAt d t ops ↔ HasAt d t (levels ops) := by
  induction ops using List.reverseRecOn generalizing d with
  | nil =>
    constructor
    · rintro ⟨before, constants, after, h, -⟩
      -- Without operations there is no declaration, and the level at the base is empty.
      exact absurd h.symm (List.append_ne_nil_of_right_ne_nil _ (List.cons_ne_nil _ _))
    · rintro (⟨-, h⟩ | h)
      · cases h
      · exact h.elim
  | append_singleton ops op ih =>
    -- The operations leave one level more than they have opened, so there is a current one.
    obtain ⟨level, rest, hlevels⟩ := List.exists_cons_of_length_eq_add_one (length_levels_eq ops)
    have hlength := length_levels_eq ops
    rw [hlevels, List.length_cons, Nat.add_right_cancel_iff] at hlength
    rw [declaredAt_concat, levels_concat, hlevels, hasAt_onLevels, ih, hlevels, hlength]

theorem isDeclared_iff {s : Session} {t : Term} :
    s.isDeclared t = true ↔ ∃ d, HasAt d t s.apart.levels := by
  rw [exists_hasAt_iff, ← isDeclared_apart, TwoStacks.isDeclared, List.any_eq_true]
  exact exists_congr fun level => and_congr_right fun _ => List.contains_iff_mem

/-! ### The result -/

/-- **Scopes restore the session, and the two stacks move together.** Whatever is done in a scope,
and however it ends, all open scopes are afterwards as they were before, with their assertions and
declarations, and the answer is what the body has answered.

After any operations at all the two stacks are those of the session, and have answered the same;
there is one level more than the solver has scopes, and closing a scope that is not there fails and
changes nothing. After raw operations, also without a match, the number of open scopes is the one
that the operations count, and a variable is declared if and only if it has been declared at a level
that is still open since the last reset. -/
theorem scopes_restored :
    (∀ (α : Type) (body : Act Session α), Confined body → ∀ (s : Session) (log : Log), ∃ s' log',
      (scope body).runFrom (s, log) =
        ((body.runFrom (push.runFrom (s, log)).2).1, s', log') ∧
      s'.inner = s.inner ∧ s'.base = s.base ∧ s'.assertions = s.assertions ∧
      ∀ t, s'.isDeclared t = s.isDeclared t) ∧
    ∀ (engines : Option Int → Engine) (name : String) (timeout : Option Int)
        (ops : List Operation),
      let s := afterAll engines (create name timeout) ops
      let two := TwoStacks.afterAll engines (.create name timeout) ops
      two = s.apart ∧
      TwoStacks.answers engines (.create name timeout) ops =
        answers engines (create name timeout) ops ∧
      two.levels.length = two.solver.frames.length + 1 ∧
      (two.levels.length = 1 → ∀ log,
        TwoStacks.pop.runFrom (two, log) =
          (.error (.popUnmatched two.name), two, log) ∧
        pop.runFrom (s, log) = (.error (.popUnmatched s.name), s, log)) ∧
      ((∀ op ∈ ops, op.IsRaw) →
        two.solver.frames.length = depth ops ∧
        ∀ t, s.isDeclared t = true ↔ ∃ d, DeclaredAt d t ops) := by
  constructor
  -- Assertions and declarations are read off the open scopes, which are the same ones.
  · intro α body hbody s log
    obtain ⟨s', hrun, hinner, hbase⟩ := hbody.runFrom_scope s log
    have hscopes : s'.scopes = s.scopes := by
      unfold scopes
      rw [hinner, hbase]
    refine ⟨s', _, hrun, hinner, hbase, ?_, fun t => ?_⟩
    · unfold assertions
      rw [hscopes]
    · unfold isDeclared
      rw [hscopes]
  · intro engines name timeout ops s two
    -- What is said of the two stacks is said of those of the session.
    have htwo : two = s.apart := TwoStacks.afterAll_apart engines (create name timeout) ops
    refine ⟨htwo, TwoStacks.answers_apart engines (create name timeout) ops, ?_, ?_, ?_⟩
    · rw [htwo]
      exact s.length_levels
    · intro hbase log
      rw [htwo] at hbase ⊢
      exact runFrom_pop_of_levels hbase log
    -- After raw operations the levels are those that the operations count, the base included.
    · intro hraw
      have hlevels : s.apart.levels = levels ops := levels_afterAll engines name timeout hraw
      constructor
      · have hlength := s.length_levels
        rw [hlevels, length_levels_eq, Nat.add_right_cancel_iff] at hlength
        rw [htwo, hlength]
      · intro t
        rw [isDeclared_iff, hlevels]
        exact exists_congr fun d => declaredAt_iff.symm

/-- A declaration ends at the first term that is no constant, and is undone with its level; closing
one level too many does nothing. -/
example (engines : Option Int → Engine) (timeout : Option Int) :
    let x : Term := .const ⟨"x", .int⟩
    let y : Term := .const ⟨"y", .int⟩
    let s := afterAll engines (create "nested" timeout)
      [.declare [x], .push, .declare [y, .neg x, x], .push, .pop]
    s.isDeclared y = true ∧ s.inner.map (·.declared) = [[y]] ∧
      (afterAll engines s [.pop, .pop]).scopes.map (·.declared) = [[x]] := ⟨rfl, rfl, rfl⟩

end Session
end Horn
