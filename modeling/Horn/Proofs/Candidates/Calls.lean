import Horn.Proofs.Equivalent

/-!
# Histories of an accumulator

An accumulator is told fragments one at a time or by merging partial models (`Accumulator.Call`).
The top-level instance may have changed between two calls, so each call comes with the instance as
it is then. `Accumulator.after` is the accumulator after a history of calls, those that fail
included, and `Accumulator.inserted` is what the history has inserted on the way.

* `fragments_next` is the step lemma, `fragments_afterFrom` the run lemma: the entry of a predicate
  has been extended by the fragments inserted for it, one after the other.
* `Tidy.extend` says what one extension preserves: entries stay tidy. That nothing is dropped that
  matters for the conjunction is known already (`sat_foldl_extend`).
* `foldl_extend_foldl`: extending an entry by the same fragments again gives the same entry, so that
  merging a model again changes nothing (`absorb_absorb`).

`entries_after` puts this together for whole histories.
-/

namespace Horn
namespace Accumulator

variable {engine : Engine} {top : Instance} {m : Accumulator} {fs ts : List Term} {t u : Term}
  {p : Int}

/-! ### Tidy entries -/

/-- The entries that a maintainer expects: no fragment twice, none that is true, and a false one
only on its own. -/
structure Tidy (engine : Engine) (fs : List Term) : Prop where
  nodup : fs.Nodup
  not_true : ∀ t ∈ fs, engine.truth? t ≠ some true
  alone : ∀ t ∈ fs, engine.truth? t = some false → fs = [t]

theorem tidy_nil : Tidy engine [] :=
  ⟨List.nodup_nil, List.forall_mem_nil _, List.forall_mem_nil _⟩

theorem extend_of_true (h : engine.truth? t = some true) : extend engine fs t = fs := by
  rw [extend, h]

theorem extend_of_false (h : engine.truth? t = some false) : extend engine fs t = [t] := by
  rw [extend, h]

theorem extend_of_covered (h : engine.truth? t = none) (hcov : covered engine fs t = true) :
    extend engine fs t = fs := by
  rw [extend, h]
  exact if_pos hcov

theorem extend_of_not_covered (h : engine.truth? t = none) (hcov : ¬covered engine fs t = true) :
    extend engine fs t = fs ++ [t] := by
  rw [extend, h]
  exact if_neg hcov

theorem covered_iff : covered engine fs t = true ↔
    t ∈ fs ∨ ∃ u ∈ fs, engine.truth? u = some false := by
  simp only [covered, List.any_eq_true, Bool.or_eq_true, beq_iff_eq, and_or_left, exists_or,
    exists_eq_right]

/-- **One fragment more** leaves an entry tidy. -/
theorem Tidy.extend (h : Tidy engine fs) (t : Term) : Tidy engine (extend engine fs t) := by
  cases ht : engine.truth? t with
  | some b =>
    cases b with
    | true =>
      rw [extend_of_true ht]
      exact h
    | false =>
      -- The entry collapses.
      have hnot : engine.truth? t ≠ some true := by
        rw [ht]
        decide
      rw [extend_of_false ht]
      refine ⟨List.nodup_singleton t, List.forall_mem_singleton.2 hnot, ?_⟩
      exact List.forall_mem_singleton.2 fun _ => rfl
  | none =>
    by_cases hcov : covered engine fs t = true
    · rw [extend_of_covered ht hcov]
      exact h
    · rw [extend_of_not_covered ht hcov]
      rw [covered_iff, not_or] at hcov
      obtain ⟨hnew, hnofalse⟩ := hcov
      have hundecided : ∀ b, engine.truth? t ≠ some b := by
        intro b hb
        rw [ht] at hb
        cases hb
      refine ⟨?_, ?_, ?_⟩
      · exact List.nodup_append.2 ⟨h.nodup, List.nodup_singleton t,
          fun u hu v hv huv => hnew (by rwa [← List.mem_singleton.1 hv, ← huv])⟩
      · exact List.forall_mem_append.2
          ⟨h.not_true, List.forall_mem_singleton.2 (hundecided true)⟩
      · -- Neither the old fragments nor the new one are false.
        intro u hu hfalse
        rcases List.mem_append.1 hu with hu | hu
        · exact absurd ⟨u, hu, hfalse⟩ hnofalse
        · rw [List.mem_singleton.1 hu] at hfalse
          exact absurd hfalse (hundecided false)

theorem Tidy.foldl_extend (h : Tidy engine fs) (ts : List Term) :
    Tidy engine (ts.foldl (Accumulator.extend engine) fs) := by
  induction ts generalizing fs with
  | nil => exact h
  | cons t ts ih => exact ih (h.extend t)

/-! ### The same fragments again -/

/-- Once a false fragment comes, it does not matter what was there before. -/
theorem foldl_extend_of_false (h : ∃ t ∈ ts, engine.truth? t = some false) (fs fs' : List Term) :
    ts.foldl (extend engine) fs = ts.foldl (extend engine) fs' := by
  induction ts generalizing fs fs' with
  | nil =>
    obtain ⟨t, ht, -⟩ := h
    exact absurd ht List.not_mem_nil
  | cons t ts ih =>
    rw [List.foldl_cons, List.foldl_cons]
    by_cases hlater : ∃ u ∈ ts, engine.truth? u = some false
    · exact ih hlater _ _
    · -- The first fragment is the false one.
      obtain ⟨u, hu, hfalse⟩ := h
      rcases List.mem_cons.1 hu with rfl | hu
      · rw [extend_of_false hfalse, extend_of_false hfalse]
      · exact absurd ⟨u, hu, hfalse⟩ hlater

/-- A fragment that is not false leaves the ones before it. -/
theorem mem_extend_of_mem (ht : engine.truth? t ≠ some false) (hu : u ∈ fs) :
    u ∈ extend engine fs t := by
  unfold extend
  split
  · exact hu
  · next hfalse => exact absurd hfalse ht
  · split
    · exact hu
    · exact List.mem_append_left [t] hu

theorem mem_foldl_extend_of_mem (hts : ∀ t ∈ ts, engine.truth? t ≠ some false) (hu : u ∈ fs) :
    u ∈ ts.foldl (extend engine) fs := by
  induction ts generalizing fs with
  | nil => exact hu
  | cons t ts ih =>
    rw [List.forall_mem_cons] at hts
    exact ih hts.2 (mem_extend_of_mem hts.1 hu)

/-- A fragment that was learned before adds nothing, unless there was a false one. -/
theorem extend_foldl_extend (hts : ∀ t ∈ ts, engine.truth? t ≠ some false) (fs : List Term) :
    ∀ t ∈ ts, extend engine (ts.foldl (extend engine) fs) t = ts.foldl (extend engine) fs := by
  induction ts generalizing fs with
  | nil => exact List.forall_mem_nil _
  | cons u ts ih =>
    rw [List.forall_mem_cons] at hts
    rw [List.forall_mem_cons, List.foldl_cons]
    refine ⟨?_, ih hts.2 _⟩
    cases hu : engine.truth? u with
    | some b =>
      cases b with
      | true => exact extend_of_true hu
      | false => exact absurd hu hts.1
    | none =>
      refine extend_of_covered hu (covered_iff.2 ?_)
      -- What covers the fragment is still there at the end.
      by_cases hcov : covered engine fs u = true
      · rw [extend_of_covered hu hcov]
        rcases covered_iff.1 hcov with hmem | ⟨v, hv, hfalse⟩
        · exact .inl (mem_foldl_extend_of_mem hts.2 hmem)
        · exact .inr ⟨v, mem_foldl_extend_of_mem hts.2 hv, hfalse⟩
      · rw [extend_of_not_covered hu hcov]
        exact .inl (mem_foldl_extend_of_mem hts.2 (List.mem_append_right fs List.mem_cons_self))

theorem foldl_extend_eq_self (h : ∀ t ∈ ts, extend engine fs t = fs) :
    ts.foldl (extend engine) fs = fs := by
  induction ts with
  | nil => rfl
  | cons t ts ih =>
    rw [List.forall_mem_cons] at h
    rw [List.foldl_cons, h.1, ih h.2]

/-- **The same fragments again** change nothing. -/
theorem foldl_extend_foldl (ts fs : List Term) :
    ts.foldl (extend engine) (ts.foldl (extend engine) fs) = ts.foldl (extend engine) fs := by
  by_cases hfalse : ∃ t ∈ ts, engine.truth? t = some false
  · exact foldl_extend_of_false hfalse _ _
  · have hts : ∀ t ∈ ts, engine.truth? t ≠ some false := fun t ht h => hfalse ⟨t, ht, h⟩
    exact foldl_extend_eq_self (extend_foldl_extend hts fs)

/-! ### Entries -/

/-- The entry of a predicate that is not undefined stays. -/
theorem find?_absorb (h : isUndefined top p = false) (m : Accumulator) (model : Definitions) :
    (absorb engine top m model).find? (·.1 == p) = m.find? (·.1 == p) := by
  induction model generalizing m with
  | nil => rfl
  | cons e model ih =>
    rw [absorb_cons, ih, absorb_singleton]
    by_cases he : isUndefined top e.1 = true
    · have hne : p ≠ e.1 := by
        rintro rfl
        rw [h] at he
        cases he
      rw [if_pos he, find?_put, if_neg hne]
    · rw [if_neg he]

theorem has_put (m : Accumulator) (p q : Int) (fs : List Term) :
    (m.put p fs).has q = (p == q || m.has q) := by
  have hmap : ∀ m : Accumulator, m.has q = (m.map (·.1)).any (· == q) := fun m => by
    rw [List.any_map]
    rfl
  rw [hmap, hmap, keys_put]
  split
  · next hp =>
    by_cases hpq : p = q
    · rw [← hmap, ← hpq, hp, Bool.or_true]
    · simp [hpq]
  · rw [List.any_append, Bool.or_comm, List.any_cons, List.any_nil, Bool.or_false]

/-- No predicate gets a second entry. -/
theorem nodup_put (h : (m.map (·.1)).Nodup) (p : Int) (fs : List Term) :
    ((m.put p fs).map (·.1)).Nodup := by
  rw [keys_put]
  split
  · exact h
  · next hp =>
    refine List.nodup_append.2 ⟨h, List.nodup_singleton p, fun q hq r hr hqr => hp ?_⟩
    obtain ⟨e, he, rfl⟩ := List.mem_map.1 hq
    rw [List.mem_singleton] at hr
    exact List.any_eq_true.2 ⟨e, he, by rw [hqr, hr, beq_self_eq_true]⟩

theorem nodup_absorb (h : (m.map (·.1)).Nodup) (top : Instance) (model : Definitions) :
    ((absorb engine top m model).map (·.1)).Nodup := by
  induction model generalizing m with
  | nil => exact h
  | cons e model ih =>
    rw [absorb_cons, absorb_singleton]
    split
    · exact ih (nodup_put h _ _)
    · exact ih h

/-- What is absorbed has entries afterwards, and entries stay. -/
theorem has_absorb (m : Accumulator) (model : Definitions) (p : Int) :
    (absorb engine top m model).has p =
      ((undefined top model).any (·.1 == p) || m.has p) := by
  induction model generalizing m with
  | nil => rfl
  | cons e model ih =>
    rw [absorb_cons, ih, undefined_cons, absorb_singleton]
    split
    · rw [List.any_cons, has_put, Bool.or_left_comm, Bool.or_assoc]
    · rfl

/-- Where all that is absorbed has entries no entry is added. -/
theorem keys_absorb {model : Definitions} (h : ∀ e ∈ undefined top model, m.has e.1 = true) :
    (absorb engine top m model).map (·.1) = m.map (·.1) := by
  induction model generalizing m with
  | nil => rfl
  | cons e model ih =>
    rw [undefined_cons] at h
    rw [absorb_cons, absorb_singleton]
    by_cases he : isUndefined top e.1 = true
    · rw [if_pos he, List.forall_mem_cons] at h
      -- What is put has an entry already, so all later keys have one afterwards as before.
      have hrest : ∀ e' ∈ undefined top model,
          (m.put e.1 (extend engine (m.fragments e.1) e.2)).has e'.1 = true := by
        intro e' he'
        rw [has_put, h.2 e' he', Bool.or_true]
      rw [if_pos he, ih hrest, keys_put, if_pos h.1]
    · rw [if_neg he] at h
      rw [if_neg he, ih h]

/-- The entry of a predicate that has one. -/
theorem fragments_of_mem (h : (m.map (·.1)).Nodup) {e : Int × List Term} (he : e ∈ m) :
    m.fragments e.1 = e.2 := by
  induction m with
  | nil => exact absurd he List.not_mem_nil
  | cons e' m ih =>
    rw [List.map_cons, List.nodup_cons] at h
    unfold fragments
    rw [List.find?_cons]
    rcases List.mem_cons.1 he with rfl | he
    · rw [beq_self_eq_true]
      rfl
    -- The keys differ, so the search goes past this entry.
    · have hne : (e'.1 == e.1) = false := by
        rw [beq_eq_false_iff_ne]
        intro heq
        exact h.1 (List.mem_map.2 ⟨e, he, heq.symm⟩)
      rw [hne]
      exact ih h.2 he

/-- An accumulator is told by the predicates with an entry, in their order, and by the fragments. -/
theorem eq_of_fragments {m' : Accumulator} (h : (m.map (·.1)).Nodup)
    (hkeys : m'.map (·.1) = m.map (·.1)) (hfragments : ∀ p, m'.fragments p = m.fragments p) :
    m' = m := by
  have hentries : ∀ {m : Accumulator}, (m.map (·.1)).Nodup →
      (m.map (·.1)).map (fun p => (p, m.fragments p)) = m := by
    intro m hm
    rw [List.map_map]
    refine (List.map_congr_left fun e he => ?_).trans (List.map_id m)
    change (e.1, m.fragments e.1) = e
    rw [fragments_of_mem hm he]
  have hm' : (m'.map (·.1)).Nodup := by rwa [hkeys]
  calc m' = (m'.map (·.1)).map fun p => (p, m'.fragments p) := (hentries hm').symm
    _ = (m.map (·.1)).map fun p => (p, m.fragments p) := by rw [hkeys, funext hfragments]
    _ = m := hentries h

/-- **Absorbing a model twice** is absorbing it once. -/
theorem absorb_absorb (h : (m.map (·.1)).Nodup) (model : Definitions) :
    absorb engine top (absorb engine top m model) model = absorb engine top m model := by
  refine eq_of_fragments (nodup_absorb h top model) (keys_absorb fun e he => ?_) fun p => ?_
  · rw [has_absorb, Bool.or_eq_true]
    exact .inl (List.any_eq_true.2 ⟨e, he, beq_self_eq_true e.1⟩)
  · rw [fragments_absorb, fragments_absorb, foldl_extend_foldl]

/-! ### Calls -/

/-- A use of an accumulator, with the top-level instance at that time. -/
inductive Call where
  | merge (top : Instance) (model : Definitions)
  | add (top : Instance) (p : Int) (fragment : Term)

namespace Call

/-- What a call does. -/
def act (engine : Engine) : Call → Act Accumulator Unit
  | .merge top model => Accumulator.merge engine top model
  | .add top p fragment => Accumulator.add engine top p fragment

/-- The accumulator after a call, whether or not it fails. -/
def next (engine : Engine) (m : Accumulator) (c : Call) : Accumulator := ((c.act engine).exec m).2.1

/-- What a call inserts. A merge passes over the predicates that are defined and ends at a handle of
no predicate. An addition that fails inserts nothing. -/
def inserted (engine : Engine) (m : Accumulator) : Call → Definitions
  | .merge top model => undefined top (reached top model)
  | .add top p fragment =>
    match ((Accumulator.add engine top p fragment).exec m).1 with
    | .ok () => [(p, fragment)]
    | .error _ => []

/-- The fragments that a call comes with. -/
def given : Call → Definitions
  | .merge _ model => model
  | .add _ p fragment => [(p, fragment)]

/-- The fragments that a call is to insert, if nothing is wrong with the handles. -/
def intended : Call → Definitions
  | .merge top model => undefined top model
  | .add _ p fragment => [(p, fragment)]

/-- The handles of a call are predicates of the instance. -/
def Applies : Call → Prop
  | .merge top model => ∀ e ∈ model, ∃ q, top.pred e.1 = .ok q
  | .add top p _ => ∃ q, top.pred p = .ok q

end Call

theorem next_merge (engine : Engine) (m : Accumulator) (top : Instance) (model : Definitions) :
    Call.next engine m (.merge top model) = absorb engine top m (reached top model) := by
  obtain ⟨log, hrun⟩ := runFrom_merge engine top model (m, [])
  rw [Call.next, Call.act, Act.exec_eq, hrun]

/-- Adding a fragment fails and leaves the fragments, or extends the entry. -/
theorem exists_added (engine : Engine) (top : Instance) (p : Int) (t : Term) (m : Accumulator) :
    (∃ e log, (add engine top p t).exec m = (.error e, m.put p (m.fragments p), log)) ∨
      ∃ log, (add engine top p t).exec m =
        (.ok (), m.put p (extend engine (m.fragments p) t), log) := by
  cases hp : top.pred p with
  | ok q =>
    obtain ⟨log, hlog⟩ := runFrom_add engine hp t (m, [])
    exact .inr ⟨log, hlog⟩
  | error e =>
    rw [Act.exec_eq, add, Act.runFrom_bind_of_ok (Act.runFrom_get _),
      Act.runFrom_bind_of_ok (Act.runFrom_set _ _)]
    -- The name of the predicate is only looked up where the entry collapses.
    split
    · rw [hp]
      exact .inl ⟨e, _, rfl⟩
    · exact .inr ⟨_, rfl⟩

/-- **The step lemma.** A call extends the entry of a predicate by what it inserts for it. -/
theorem fragments_next (engine : Engine) (m : Accumulator) (c : Call) (p : Int) :
    (c.next engine m).fragments p =
      (Definitions.formulas (c.inserted engine m) p).foldl (extend engine) (m.fragments p) := by
  cases c with
  | merge top model =>
    rw [next_merge, fragments_absorb, Call.inserted]
  | add top q t =>
    rw [Call.next, Call.act, Call.inserted]
    -- A call that fails still puts an entry, with the fragments that are there already.
    rcases exists_added engine top q t m with ⟨e, log, hrun⟩ | ⟨log, hrun⟩
    · rw [hrun, fragments_put]
      split
      · next hpq =>
        rw [hpq]
        rfl
      · rfl
    · rw [hrun, fragments_put, Definitions.formulas, List.filter_cons]
      by_cases hq : q = p
      · simp [hq]
      · simp [hq, Ne.symm hq]

theorem nodup_next (h : (m.map (·.1)).Nodup) (c : Call) :
    ((c.next engine m).map (·.1)).Nodup := by
  cases c with
  | merge top model =>
    rw [next_merge]
    exact nodup_absorb h top _
  | add top p t =>
    rw [Call.next, Call.act]
    rcases exists_added engine top p t m with ⟨e, log, hrun⟩ | ⟨log, hrun⟩
    · rw [hrun]
      exact nodup_put h p _
    · rw [hrun]
      exact nodup_put h p _

/-- A call inserts only what it comes with. -/
theorem mem_given_of_mem_inserted {c : Call} {e : Int × Term} (h : e ∈ c.inserted engine m) :
    e ∈ c.given := by
  cases c with
  | merge top model => exact List.takeWhile_subset _ (List.mem_of_mem_filter h)
  | add top p t =>
    rw [Call.inserted] at h
    split at h
    · exact h
    · exact absurd h List.not_mem_nil

/-- A call about predicates of the instance does not fail and inserts all that it is to insert. -/
theorem Call.Applies.spec {c : Call} (h : c.Applies) (engine : Engine) (m : Accumulator) :
    ((c.act engine).exec m).1 = .ok () ∧ c.inserted engine m = c.intended := by
  cases c with
  | merge top model =>
    -- All handles are known to the instance, so merging does not stop before the end.
    have hcheck : top.checkHandles model = .ok () := by
      refine Instance.checkHandles_eq_ok.2 fun e he => ?_
      obtain ⟨q, hq⟩ := h e he
      refine ⟨q.definition.isSome, ?_⟩
      rw [Instance.isKnown, hq]
      rfl
    obtain ⟨log, hrun⟩ := runFrom_merge engine top model (m, [])
    refine ⟨?_, ?_⟩
    · rw [act, Act.exec_eq, hrun, hcheck]
    · rw [inserted, intended, reached_of_checkHandles hcheck]
  | add top p t =>
    obtain ⟨q, hq⟩ := h
    obtain ⟨log, hlog⟩ := runFrom_add engine hq t (m, [])
    refine ⟨?_, ?_⟩
    · rw [act, Act.exec_eq, hlog]
    · rw [inserted, Act.exec_eq, hlog, intended]

/-! ### Histories -/

/-- The accumulator after a history of calls. -/
def afterFrom (engine : Engine) (m : Accumulator) (history : List Call) : Accumulator :=
  history.foldl (Call.next engine) m

/-- What a history of calls inserts. -/
def insertedFrom (engine : Engine) (m : Accumulator) : List Call → Definitions
  | [] => []
  | c :: history => c.inserted engine m ++ insertedFrom engine (c.next engine m) history

/-- The accumulator after a history that starts without entries. -/
def after (engine : Engine) (history : List Call) : Accumulator := afterFrom engine empty history

/-- The fragments that a history inserts for a predicate. -/
def inserted (engine : Engine) (history : List Call) (p : Int) : List Term :=
  Definitions.formulas (insertedFrom engine empty history) p

/-- **The run lemma.** The entry of a predicate has been extended by what was inserted for it, one
fragment after the other. -/
theorem fragments_afterFrom (engine : Engine) (m : Accumulator) (history : List Call) (p : Int) :
    (afterFrom engine m history).fragments p =
      (Definitions.formulas (insertedFrom engine m history) p).foldl (extend engine)
        (m.fragments p) := by
  induction history generalizing m with
  | nil => rfl
  | cons c history ih =>
    change (afterFrom engine (c.next engine m) history).fragments p = _
    rw [ih, fragments_next, insertedFrom, Definitions.formulas_append, List.foldl_append]

theorem fragments_after (engine : Engine) (history : List Call) (p : Int) :
    (after engine history).fragments p = (inserted engine history p).foldl (extend engine) [] :=
  fragments_afterFrom engine empty history p

theorem nodup_after (engine : Engine) (history : List Call) :
    ((after engine history).map (·.1)).Nodup := by
  induction history using List.reverseRecOn with
  | nil => exact List.nodup_nil
  | append_singleton history c ih =>
    rw [after, afterFrom, List.foldl_append]
    exact nodup_next ih c

theorem insertedFrom_concat (engine : Engine) (m : Accumulator) (history : List Call) (c : Call) :
    insertedFrom engine m (history ++ [c]) =
      insertedFrom engine m history ++ c.inserted engine (afterFrom engine m history) := by
  induction history generalizing m with
  | nil => exact List.append_nil _
  | cons c' history ih =>
    rw [List.cons_append, insertedFrom, insertedFrom, ih, List.append_assoc]
    rfl

/-- What is inserted comes with some call. -/
theorem exists_given {history : List Call} {e : Int × Term}
    (h : e ∈ insertedFrom engine m history) : ∃ c ∈ history, e ∈ c.given := by
  induction history generalizing m with
  | nil => exact absurd h List.not_mem_nil
  | cons c history ih =>
    rcases List.mem_append.1 h with h | h
    · exact ⟨c, List.mem_cons_self, mem_given_of_mem_inserted h⟩
    · obtain ⟨c', hc', he⟩ := ih h
      exact ⟨c', List.mem_cons_of_mem c hc', he⟩

/-- The conjunction of an entry means all that was inserted for the predicate. -/
theorem sat_after (hS : engine.Simplifies) {history : List Call}
    (hform : ∀ c ∈ history, ∀ e ∈ c.given, e.2.IsFormula) (p : Int) {U : Universe}
    (M : Structure U) : M.Sat ((after engine history).conjunction p) ↔
      ∀ t ∈ inserted engine history p, M.Sat t := by
  have hts : ∀ t ∈ inserted engine history p, t.IsFormula := by
    intro t ht
    obtain ⟨c, hc, he⟩ := exists_given (Definitions.mem_formulas.1 ht)
    exact hform c hc _ he
  rw [conjunction, sat_conjoin, fragments_after, sat_foldl_extend hS (List.forall_mem_nil _) hts,
    and_iff_right (List.forall_mem_nil _)]

theorem after_merge (engine : Engine) (history : List Call) (top : Instance) (model : Definitions) :
    after engine (history ++ [.merge top model]) =
      absorb engine top (after engine history) (reached top model) := by
  rw [after, afterFrom, List.foldl_append]
  exact next_merge engine (after engine history) top model

/-- **Whatever the history of an accumulator,** its entries are tidy, and the conjunction of an
entry means all that was ever inserted for the predicate, in whatever order. This is all that the
calls were to insert, as long as they are about predicates of the instance. Merging leaves the
entries of defined predicates, and merging a model again changes nothing. -/
theorem entries_after (hS : engine.Simplifies) (history : List Call)
    (hform : ∀ c ∈ history, ∀ e ∈ c.given, e.2.IsFormula) :
    (∀ p, Tidy engine ((after engine history).fragments p)) ∧
    (∀ p, ∀ {U : Universe} (M : Structure U), M.Sat ((after engine history).conjunction p) ↔
      ∀ t ∈ inserted engine history p, M.Sat t) ∧
    (∀ c : Call, c.Applies → ((c.act engine).exec (after engine history)).1 = .ok () ∧
      ∀ p, inserted engine (history ++ [c]) p =
        inserted engine history p ++ Definitions.formulas c.intended p) ∧
    (∀ history' : List Call, (∀ c ∈ history', ∀ e ∈ c.given, e.2.IsFormula) →
      ∀ p, (inserted engine history' p).Perm (inserted engine history p) →
        ∀ {U : Universe} (M : Structure U), M.Sat ((after engine history').conjunction p) ↔
          M.Sat ((after engine history).conjunction p)) ∧
    (∀ top model p, top.isKnown p = .ok true →
      (after engine (history ++ [.merge top model])).find? (·.1 == p) =
        (after engine history).find? (·.1 == p)) ∧
    ∀ top model, after engine (history ++ [.merge top model, .merge top model]) =
      after engine (history ++ [.merge top model]) := by
  refine ⟨fun p => ?_, fun p U M => sat_after hS hform p M, fun c hc => ?_,
    fun history' hform' p hperm U M => ?_, fun top model p hknown => ?_, fun top model => ?_⟩
  · rw [fragments_after]
    exact tidy_nil.foldl_extend _
  · obtain ⟨hok, hinserted⟩ := hc.spec engine (after engine history)
    refine ⟨hok, fun p => ?_⟩
    rw [inserted, insertedFrom_concat, Definitions.formulas_append]
    exact congrArg (inserted engine history p ++ Definitions.formulas · p) hinserted
  · rw [sat_after hS hform', sat_after hS hform]
    exact forall_congr' fun t => by rw [hperm.mem_iff]
  · rw [after_merge]
    refine find?_absorb ?_ _ _
    rw [isUndefined, hknown]
    rfl
  · have hsplit : history ++ [.merge top model, .merge top model] =
        history ++ [.merge top model] ++ [.merge top model] := by
      rw [List.append_assoc]
      rfl
    rw [hsplit, after_merge, after_merge]
    exact absorb_absorb (nodup_after engine history) _

/-- An instance with an undefined predicate and one that is defined to be true. -/
def halfKnown : Instance where
  name := "half"
  preds := [⟨"A", [], [], [], none⟩, ⟨"B", [], [], [], some ⟨[], .verum⟩⟩]
  clauses := []
  users := [[], []]
  producers := [[], []]
  holders := 0
  expansions := []

/-- The fragments `true`, `b`, `b` again, `false` and `b` once more: the entry collapses and stays
so. The defined predicate gets no entry. -/
theorem entries_after_collapsed :
    let b : Term := .const ⟨"b", .bool⟩
    let history : List Call := [.merge halfKnown [(0, .verum), (1, b)], .add halfKnown 0 b,
      .merge halfKnown [(0, b)], .merge halfKnown [(0, .falsum)], .add halfKnown 0 b]
    after .literal history = [(0, [.falsum])] ∧
      inserted .literal history 0 = [.verum, b, b, .falsum, b] ∧
      Tidy .literal ((after .literal history).fragments 0) ∧
      ∀ {U : Universe} (M : Structure U), ¬M.Sat ((after .literal history).conjunction 0) := by
  intro b history
  have hform : ∀ c ∈ history, ∀ e ∈ c.given, e.2.IsFormula := by decide
  obtain ⟨htidy, hsat, -⟩ := entries_after Engine.simplifies_literal history hform
  have hinserted : inserted .literal history 0 = [.verum, b, b, .falsum, b] := by decide +kernel
  refine ⟨by decide +kernel, hinserted, htidy 0, fun {U} M => ?_⟩
  rw [hsat, hinserted]
  intro h
  exact M.not_sat_of_isFalsum rfl (h .falsum (by simp))

end Accumulator
end Horn
