import Horn.Proofs.Instance.Built
import Horn.Proofs.Instance.Cycles
import Horn.Proofs.Instance.InPlace
import Horn.Proofs.Oracle.Assertion

/-!
# Instances under calls

`Instance.Call` are the calls on a number of instances, of which one may be derived from another,
and any of which may fail half-way.

* `represented_after` says what holds of every instance after any calls, successful or not. The
  calls that add something are those that write store by store (`InPlace`).
* `simplifyInPlace_after`: what an instance remembers of expansions never shows. The entries have
  been written under definitions that may have changed since, but for predicates that have been
  added (`expand_insertPredicate`) this makes no difference, and setting a definition forgets them.
-/

namespace Horn
namespace Instance

variable {callable : Callable} {inst inst' sub : Instance}

/-! ### Adding a predicate does not change expansions -/

/-- The same applications are unfolded, in the same way, as long as the new predicate has no
definition. -/
theorem unfoldable?_insertPredicate {q : Predicate} (hq : q.definition = none) (stack : List Nat)
    (f : Symbol) : (inst.insertPredicate q).unfoldable? stack f = inst.unfoldable? stack f := by
  have hfind : (inst.insertPredicate q).predOf? f = (inst.predOf? f).or
      (if q.symbol == f then some inst.preds.length else none) := by
    simp [predOf?, Instance.insertPredicate, List.findIdx?_append, List.findIdx?_singleton]
  unfold unfoldable?
  rw [hfind]
  cases hf : inst.predOf? f with
  | some p =>
    -- An old predicate has its old definition.
    have hlt : p < inst.preds.length := (List.findIdx?_eq_some_iff_getElem.1 hf).1
    have hdefinition : (inst.insertPredicate q).definition? p = inst.definition? p := by
      simp [definition?, Instance.insertPredicate, List.getElem?_append_left hlt]
    simp only [Option.some_or, hdefinition]
  | none =>
    have hdefinition : (inst.insertPredicate q).definition? inst.preds.length = none := by
      simp [definition?, Instance.insertPredicate, hq]
    cases q.symbol == f <;> simp [hdefinition]

/-- Expansions depend on what is unfolded only. -/
theorem Expands.congr (hunfold : inst'.unfoldable? = inst.unfoldable?) {stack : List Nat} {t : Term}
    {r : Except Fault Term} (h : inst.Expands callable stack t r) :
    inst'.Expands callable stack t r := by
  induction h with
  | lit a => exact .lit a
  | bound i s => exact .bound i s
  | quant q xs b => exact .quant q xs b
  | folded hlength _ hf ih => exact .folded hlength ih (hunfold ▸ hf)
  | unfolded hlength _ hf happly _ ih iht => exact .unfolded hlength ih (hunfold ▸ hf) happly iht
  | misfit hlength _ hf happly ih => exact .misfit hlength ih (hunfold ▸ hf) happly
  | operator hlength _ ih => exact .operator hlength ih
  | functionArgument hlength _ _ ih iha => exact .functionArgument hlength ih iha
  | operatorArgument hlength _ _ ih iha => exact .operatorArgument hlength ih iha

/-- **A new predicate** does not change any expansion. -/
theorem expand_insertPredicate {q : Predicate} (hq : q.definition = none) (t : Term) :
    (inst.insertPredicate q).expand t callable = inst.expand t callable :=
  (enough_nil _).expands_iff.1 <| ((enough_nil inst).expands t).congr <| by
    funext stack f
    exact unfoldable?_insertPredicate hq stack f

/-! ### Tended instances -/

/-- The instance without what it remembers. -/
def forget (inst : Instance) : Instance := { inst with expansions := [] }

/-- An instance that has been built, but for right expansions that it remembers. -/
structure Tended (callable : Callable) (inst : Instance) : Prop where
  built : inst.forget.Built
  remembers : inst.Remembers callable inst.expansions

theorem Built.tended (h : inst.Built) : inst.Tended callable := by
  have hexpansions := h.canonical.expansions
  have hforget : inst.forget = inst := by rw [forget, ← hexpansions]
  exact ⟨hforget.symm ▸ h, hexpansions ▸ List.forall_mem_nil _⟩

/-- What is remembered is no part of the index. -/
theorem Tended.indexed (h : inst.Tended callable) : inst.Indexed := by
  obtain ⟨hindex, hused, hconcluded, husers, hproducers⟩ := h.built.canonical.indexed
  exact ⟨hindex, hused, hconcluded, husers, hproducers⟩

/-- Right expansions may be remembered. -/
theorem Tended.remember (h : inst.Tended callable) {memory : List (Term × Term)}
    (hmemory : inst.Remembers callable memory) :
    Tended callable { inst with expansions := memory } := by
  refine ⟨h.built, Remembers.congr ?_ hmemory⟩
  rfl

theorem Tended.addPredicate (h : inst.Tended callable) {name : String} {sorts : List TermSort}
    {original : Option (List TermSort)} {positions : Option (List Int)}
    (ha : inst.addPredicate name sorts original positions = .ok inst') : inst'.Tended callable := by
  -- Whether a predicate can be added does not depend on what is remembered.
  have hforget : inst.forget.addPredicate name sorts original positions = .ok inst'.forget := by
    unfold Instance.addPredicate at ha ⊢
    change (if inst.preds.any (·.name == name) then _ else _) = _
    split at ha
    · cases ha
    · next hnew =>
      rw [if_neg hnew]
      obtain ⟨q, hq, ha⟩ := bind_eq_ok.1 ha
      cases ha
      exact bind_eq_ok.2 ⟨q, hq, rfl⟩
  refine ⟨h.built.addPredicate _ _ _ _ hforget, ?_⟩
  unfold Instance.addPredicate at ha
  split at ha
  · cases ha
  · obtain ⟨q, hq, ha⟩ := bind_eq_ok.1 ha
    cases ha
    -- The new predicate has no definition, so expansions stay what they were.
    obtain ⟨_, _, -, -, rfl⟩ := Predicate.make_ok hq
    intro e he
    rw [expand_insertPredicate rfl]
    exact h.remembers e he

theorem Tended.addClause (h : inst.Tended callable) {spec : ClauseSpec}
    (ha : inst.addClause spec = .ok inst') : inst'.Tended callable := by
  obtain ⟨apps, conclusion, hgiven, hconclusion, htakes, hconcludes, rfl⟩ := addClause_eq_ok.1 ha
  have hforget : inst.forget.addClause spec = .ok (inst.insertClause _).forget :=
    addClause_eq_ok.2 ⟨apps, conclusion, hgiven, hconclusion, htakes, hconcludes, rfl⟩
  refine ⟨h.built.addClause _ hforget, Remembers.congr ?_ h.remembers⟩
  rfl

theorem Tended.setDefinition (h : inst.Tended callable) {p : Int} {body : Term}
    {params : Option (List Constant)} (hs : inst.setDefinition p body params = .ok inst') :
    inst'.Tended callable := by
  have hforget : inst.forget.setDefinition p body params = .ok inst' := by
    unfold Instance.setDefinition at hs ⊢
    split at hs
    · cases hs
    · next i hi =>
      cases hs
      have hforget : resolve? inst.forget.preds.length p = some i := hi
      rw [hforget]
      rfl
  exact (h.built.setDefinition _ _ _ hforget).tended

/-- What is derived from an instance has been built. -/
theorem Canonical.built_of_derive (h : inst.Canonical) {name : String} {clauses : List Int}
    (hd : inst.derive name clauses = .ok sub) : sub.Built :=
  foldlM_ok hd (h.built_predicates name) fun _ _ _ _ hbuilt hstep => by
    obtain ⟨c, -, hadd⟩ := bind_eq_ok.1 hstep
    exact hbuilt.addClause _ hadd

theorem derive_forget (name : String) (clauses : List Int) :
    inst.forget.derive name clauses = inst.derive name clauses := rfl

theorem Tended.derive (h : inst.Tended callable) {name : String} {clauses : List Int}
    (hd : inst.derive name clauses = .ok sub) : sub.Tended callable :=
  (h.built.canonical.built_of_derive ((derive_forget name clauses).trans hd)).tended

/-! ### Calls -/

/-- What is done with an instance. The last case is what simplifying does with each term in the
formulas of a map, also if it fails later on: the expansion of the term is remembered. -/
inductive Operation where
  | addPredicate (name : String) (sorts : List TermSort) (original : Option (List TermSort))
      (positions : Option (List Int))
  | addClause (spec : ClauseSpec)
  | setDefinition (p : Int) (body : Term) (params : Option (List Constant))
  | inline (t : Term)
  | simplify (engine : Engine) (defs : Definitions)
  | remember (t : Term)

/-- Performs an operation, with engines that take the given calls. -/
def Operation.act (callable : Callable) : Operation → Act Instance Unit
  | .addPredicate name sorts original positions =>
    InPlace.addPredicate name sorts original positions
  | .addClause spec => InPlace.addClause spec
  | .setDefinition p body params => do
    set (← Act.ofExcept ((← get).setDefinition p body params))
  | .inline t => do
    let _ ← Act.ofExcept ((← get).expand t callable)
  | .simplify engine defs => do
    let _ ← simplifyInPlace { engine with callable := callable } defs
  | .remember t => do
    let inst ← get
    let (_, memory) ← Act.ofExcept (inst.expandRemembered callable t inst.expansions)
    set { inst with expansions := memory }

/-- A call on a number of instances: a new one is made, one is derived from another, or something is
done with one of them. -/
inductive Call where
  | create (name : String)
  | derive (i : Nat) (name : String) (clauses : List Int)
  | operate (i : Nat) (op : Operation)

/-- The instances after a call. An operation that fails leaves what it has written before. -/
def Call.next (callable : Callable) (insts : List Instance) : Call → List Instance
  | .create name => insts ++ [empty name]
  | .derive i name clauses =>
    match insts[i]? with
    | none => insts
    | some inst =>
      match inst.derive name clauses with
      | .ok sub => insts ++ [sub]
      | .error _ => insts
  | .operate i op => insts.modify i fun inst => ((op.act callable).exec inst).2.1

/-- The instances after some calls, all with engines that take the same calls of declarations. -/
def after (callable : Callable) (calls : List Call) : List Instance :=
  calls.foldl (Call.next callable) []

/-- **One operation**, be it successful or not, keeps an instance tended. -/
theorem Tended.operate (h : inst.Tended callable) (op : Operation) :
    ((op.act callable).exec inst).2.1.Tended callable := by
  rw [Act.exec_eq]
  cases op with
  | addPredicate name sorts original positions =>
    rw [Operation.act, InPlace.runFrom_addPredicate]
    cases ha : inst.addPredicate name sorts original positions with
    | error e => exact h
    | ok inst' => exact h.addPredicate ha
  | addClause spec =>
    rw [Operation.act, InPlace.runFrom_addClause h.indexed]
    -- A fault of the call leaves the instance as it was, in this case and in the others.
    cases ha : inst.addClause spec with
    | error e => exact h
    | ok inst' => exact h.addClause ha
  | setDefinition p body params =>
    rw [Operation.act, Act.runFrom_bind_of_ok (Act.runFrom_get _), Act.runFrom_bind,
      Act.runFrom_ofExcept]
    cases hs : inst.setDefinition p body params with
    | error e => exact h
    | ok inst' => exact h.setDefinition hs
  -- Expanding without a memory changes nothing.
  | inline t =>
    rw [Operation.act, Act.runFrom_bind_of_ok (Act.runFrom_get _), Act.runFrom_bind,
      Act.runFrom_ofExcept]
    cases inst.expand t callable <;> exact h
  | simplify engine defs =>
    obtain ⟨memory, hmemory, hall⟩ :=
      simplifyAll_eq { engine with callable := callable } defs h.remembers
    rw [Operation.act, Act.runFrom_bind, simplifyInPlace,
      Act.runFrom_bind_of_ok (Act.runFrom_get _), Act.runFrom_bind, Act.runFrom_ofExcept, hall]
    cases inst.simplified { engine with callable := callable } defs with
    -- What is remembered afterwards is right, whether by one formula or by many.
    | error e => exact h
    | ok defs' => exact h.remember hmemory
  | remember t =>
    obtain ⟨memory, hmemory, hexpanded⟩ := expandRemembered_eq t h.remembers
    rw [Operation.act, Act.runFrom_bind_of_ok (Act.runFrom_get _), Act.runFrom_bind,
      Act.runFrom_ofExcept, hexpanded]
    cases inst.expand t callable with
    | error e => exact h
    | ok u => exact h.remember hmemory

/-- **The run lemma.** Whatever calls have been made, all instances are tended. -/
theorem tended_after (callable : Callable) (calls : List Call) :
    ∀ inst ∈ after callable calls, inst.Tended callable := by
  -- One call changes one instance of the list, or appends one.
  have hnext : ∀ (insts : List Instance) (c : Call), (∀ inst ∈ insts, inst.Tended callable) →
      ∀ inst ∈ c.next callable insts, inst.Tended callable := by
    intro insts c h
    cases c with
    | create name =>
      exact List.forall_mem_append.2 ⟨h, List.forall_mem_singleton.2 (Built.empty name).tended⟩
    | derive i name clauses =>
      rw [Call.next]
      split
      · exact h
      -- Handles lead to instances of the list, and only a derivation that succeeds appends one.
      · next inst hinst =>
        split
        · next sub hsub =>
          have hsub' := (h inst (List.mem_of_getElem? hinst)).derive hsub
          exact List.forall_mem_append.2 ⟨h, List.forall_mem_singleton.2 hsub'⟩
        · exact h
    | operate i op =>
      intro inst hinst
      obtain ⟨j, hj⟩ := List.getElem?_of_mem hinst
      rw [Call.next, List.getElem?_modify] at hj
      obtain ⟨inst', hinst', rfl⟩ := Option.map_eq_some_iff.1 hj
      have hold := h inst' (List.mem_of_getElem? hinst')
      split
      · exact hold.operate op
      · exact hold
  induction calls using List.reverseRecOn with
  | nil => exact List.forall_mem_nil _
  | append_singleton calls c ih =>
    rw [after, List.foldl_append]
    exact hnext _ c ih

/-! ### What is represented -/

/-- A table that lists, for each predicate, the clauses that mention it in some way, in ascending
order. -/
def Lists (inst : Instance) (mentions : Nat → Clause → Prop) (table : List (List Nat)) : Prop :=
  table.length = inst.preds.length ∧ ∀ (p : Nat) (l : List Nat), table[p]? = some l →
    l.Pairwise (· < ·) ∧ ∀ i, i ∈ l ↔ ∃ c, inst.clauses[i]? = some c ∧ mentions p c

/-- The tables of an instance fit together. -/
structure Represented (inst : Instance) : Prop where
  /-- The symbol of a predicate leads back to the index of the predicate. -/
  pred_index : ∀ (i : Nat) (q : Predicate), inst.preds[i]? = some q → inst.predOf? q.symbol = some i
  clause_index : ∀ (i : Nat) (c : Clause), inst.clauses[i]? = some c → c.index = i
  names : (inst.preds.map (·.name)).Nodup
  positions : ∀ q ∈ inst.preds, q.positions.length = q.sorts.length ∧
    ∀ i j : Nat, q.positions[i]? = some j →
      j < q.originalSorts.length ∧ q.originalSorts[j]? = q.sorts[i]?
  takes : ∀ c ∈ inst.clauses, ∀ a, a ∈ c.apps ∨ c.conclusion = some a → inst.Takes a
  distinct : ∀ c ∈ inst.clauses, c.apps.Nodup
  users : inst.Lists (fun p c => ∃ args, (p, args) ∈ c.apps) inst.users
  producers : inst.Lists (fun p c => ∃ args, c.conclusion = some (p, args)) inst.producers

/-- No application of grouped ones comes twice. -/
theorem nodup_flatten {us : List Uses} (h : Uses.Grouped us) : (Uses.flatten us).Nodup := by
  rw [Uses.flatten, List.nodup_flatMap]
  refine ⟨fun u hu => (h.args u hu).2.map fun _ _ heq => (Prod.mk.inj heq).2, ?_⟩
  refine (List.pairwise_map.1 h.preds).imp fun {u v} huv a hu hv => huv ?_
  obtain ⟨_, -, rfl⟩ := List.mem_map.1 hu
  obtain ⟨_, -, heq⟩ := List.mem_map.1 hv
  exact (Prod.mk.inj heq).1.symm

/-- A group has an application. -/
theorem mem_usedPreds_iff {c : Clause} (h : Uses.Grouped c.uses) {p : Nat} :
    p ∈ c.usedPreds ↔ ∃ args, (p, args) ∈ c.apps := by
  constructor
  · intro hp
    obtain ⟨u, hu, rfl⟩ := List.mem_map.1 hp
    obtain ⟨args, hargs⟩ := List.exists_mem_of_ne_nil _ (h.args u hu).1
    exact ⟨args, List.mem_flatMap.2 ⟨u, hu, List.mem_map_of_mem hargs⟩⟩
  · rintro ⟨args, hargs⟩
    exact Clause.mem_usedPreds hargs

/-- What the tables of an index list. -/
theorem Indexed.lists (h : inst.Indexed) {mentioned : Clause → List Nat}
    {mentions : Nat → Clause → Prop}
    (hmentions : ∀ c ∈ inst.clauses, ∀ p, p ∈ mentioned c ↔ mentions p c) :
    inst.Lists mentions (indexOf inst.clauses mentioned inst.preds.length) := by
  refine ⟨by simp [indexOf], fun p l hl => ?_⟩
  rw [indexOf, List.getElem?_map] at hl
  obtain ⟨p', hp', rfl⟩ := Option.map_eq_some_iff.1 hl
  obtain ⟨-, rfl⟩ := List.getElem?_eq_some_iff.1 hp'
  rw [List.getElem_range]
  constructor
  · -- A part of the numbers of all clauses.
    have hall : (inst.clauses.map (·.index)).Pairwise (· < ·) := h.index ▸ List.pairwise_lt_range
    exact hall.sublist (List.filter_sublist.map _)
  · intro i
    simp only [List.mem_map, List.mem_filter, decide_eq_true_eq]
    constructor
    · rintro ⟨c, ⟨hc, hp⟩, rfl⟩
      exact ⟨c, h.getElem?_index hc, (hmentions c hc p).1 hp⟩
    · rintro ⟨c, hi, hp⟩
      have hc := List.mem_of_getElem? hi
      exact ⟨c, ⟨hc, (hmentions c hc p).2 hp⟩, index_iff.1 h.index i c hi⟩

/-- **A canonical instance** is represented by its tables. -/
theorem Canonical.represented (h : inst.Canonical) : inst.Represented where
  pred_index _ _ := predOf?_symbol h.names
  clause_index := index_iff.1 h.indexed.index
  names := h.names
  positions q hq := by
    -- The definition plays no role in the check of the positions.
    have hmade : { q with definition := none }.IsProjection :=
      Predicate.isProjection_of_make (h.consistent q hq)
    have hprojection : q.IsProjection := hmade
    refine ⟨hprojection.length, fun i j hj => ?_⟩
    refine ⟨hprojection.lt j (List.mem_of_getElem? hj), ?_⟩
    have hat := congrArg (·[i]?) hprojection
    simp only [List.getElem?_map, hj, Option.map_some] at hat
    cases hs : q.sorts[i]? with
    | none => simp [hs] at hat
    | some s => simpa [hs] using hat
  takes c hc a ha := by
    rcases ha with ha | ha
    · exact (h.clauses c hc).apps a ha
    · exact (h.clauses c hc).conclusion a ha
  distinct c hc := nodup_flatten (h.clauses c hc).grouped
  users := h.indexed.users ▸ h.indexed.lists fun c hc p =>
    mem_usedPreds_iff (h.clauses c hc).grouped
  producers := h.indexed.producers ▸ h.indexed.lists fun c _ p => by
    rw [Clause.concludedPreds]
    cases c.conclusion with
    | none => simp
    | some a => simp [Prod.ext_iff, eq_comm]

/-- What is remembered is no part of the representation. -/
theorem represented_of_forget (h : inst.forget.Represented) : inst.Represented :=
  ⟨h.pred_index, h.clause_index, h.names, h.positions, h.takes, h.distinct, h.users, h.producers⟩

/-- **Whatever calls have been made,** successful or not, the tables of every instance fit together.
Adding a predicate or a clause enters it completely, or it fails and leaves the instance as it
was. -/
theorem represented_after (callable : Callable) (calls : List Call) :
    ∀ inst ∈ after callable calls, inst.Represented ∧ (∀ name sorts original positions,
      (InPlace.addPredicate name sorts original positions).exec inst =
        InPlace.atomically (inst.addPredicate name sorts original positions) (inst, [])) ∧
    ∀ spec, (InPlace.addClause spec).exec inst =
      InPlace.atomically (inst.addClause spec) (inst, []) := by
  intro inst hinst
  have h := tended_after callable calls inst hinst
  refine ⟨represented_of_forget h.built.canonical.represented,
    fun name sorts original positions => ?_,
    fun spec => ?_⟩
  · rw [Act.exec_eq]
    exact InPlace.runFrom_addPredicate name sorts original positions inst []
  · rw [Act.exec_eq]
    exact InPlace.runFrom_addClause h.indexed spec []

/-- A predicate that is declared twice, a clause with one application twice, a clause that does not
fit, and an instance that is derived from the first one, with its clause counted from the end. -/
theorem represented_after_doubled :
    let history : List Call := [.create "i", .operate 0 (.addPredicate "P" [.int] none none),
      .operate 0 (.addPredicate "P" [] none none),
      .operate 0 (.addClause
        ⟨[], [], [(0, [.int 1]), (0, [.int 1])], some (0, [.int 2]), false, true⟩),
      .operate 0 (.addClause ⟨[], [], [(0, [.int 1])], some (0, []), false, true⟩),
      .derive 0 "j" [-1, 0]]
    ∃ inst sub, after .any history = [inst, sub] ∧ inst.users = [[0]] ∧ sub.producers = [[0, 1]] ∧
      inst.Represented ∧ sub.Represented := by
  intro history
  have hafter : after .any history = [_, _] := rfl
  refine ⟨_, _, hafter, rfl, rfl, ?_, ?_⟩
  · exact (represented_after .any history _ (hafter ▸ List.mem_cons_self)).1
  · exact (represented_after .any history _ (hafter ▸ List.mem_cons_of_mem _ List.mem_cons_self)).1

/-! ### What is remembered -/

theorem simplified_eq_mapM (engine : Engine) (inst : Instance) (defs : Definitions) :
    inst.simplified engine defs =
      defs.mapM fun e =>
        (inst.expand e.2 engine.callable).map fun t => (e.1, engine.simplify t) := by
  induction defs with
  | nil => rfl
  | cons e defs ih =>
    rw [simplified, ih, List.mapM_cons]
    cases inst.expand e.2 engine.callable with
    | error e => rfl
    | ok t =>
      cases defs.mapM fun e =>
        (inst.expand e.2 engine.callable).map fun t => (e.1, engine.simplify t) <;> rfl

/-- **What is remembered never shows.** Whatever calls have been made before, simplifying a map of
definitions in place gives the simplified expansion of each formula, under the definitions of now;
so it does where nothing is remembered. -/
theorem simplifyInPlace_after (calls : List Call) (engine : Engine) :
    ∀ inst ∈ after engine.callable calls, ∀ defs : Definitions,
      ((simplifyInPlace engine defs).exec inst).1 =
        defs.mapM (fun e =>
          (inst.expand e.2 engine.callable).map fun t => (e.1, engine.simplify t)) ∧
      ((simplifyInPlace engine defs).exec inst).1 =
        ((simplifyInPlace engine defs).exec inst.forget).1 := by
  intro inst hinst defs
  have hnow := exec_simplifyInPlace engine defs
    (tended_after engine.callable calls inst hinst).remembers
  rw [simplified_eq_mapM] at hnow
  have hnothing : inst.forget.Remembers engine.callable inst.forget.expansions :=
    List.forall_mem_nil _
  have hexpand : ∀ t, inst.forget.expand t engine.callable = inst.expand t engine.callable := by
    intro t
    refine expand_congr ?_ t
    rfl
  refine ⟨hnow, hnow.trans ?_⟩
  rw [exec_simplifyInPlace engine defs hnothing, simplified_eq_mapM]
  simp only [hexpand]

/-- An application of an undefined predicate is remembered as it is. When the predicate has been
defined, the application becomes its definition. -/
theorem simplifyInPlace_after_defined :
    let engine : Engine := { simplify := id, check := fun _ => .unknown }
    let applied : Term := .fn ⟨"P", [.int], .bool⟩ [.int 1]
    let before : List Call := [.create "i", .operate 0 (.addPredicate "P" [.int] none none),
      .operate 0 (.simplify engine [(0, applied)])]
    let later : List Call :=
      [.operate 0 (.setDefinition 0 (.eq (.const ⟨"P!0", .int⟩) (.int 0)) none)]
    (after .any before).map (·.expansions) = [[(applied, applied)]] ∧
      ∃ inst, after .any (before ++ later) = [inst] ∧
        ((simplifyInPlace engine [(0, applied)]).exec inst).1 =
          .ok [(0, .eq (.int 1) (.int 0))] := by
  intro engine applied before later
  have hafter : after .any (before ++ later) = [_] := rfl
  refine ⟨rfl, _, hafter, ?_⟩
  rw [(simplifyInPlace_after (before ++ later) engine _ (hafter ▸ List.mem_cons_self) _).1]
  rfl

end Instance
end Horn
