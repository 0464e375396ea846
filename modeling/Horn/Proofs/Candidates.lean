import Horn.Candidates
import Horn.Proofs.Act
import Horn.Proofs.Instance.Completion
import Horn.Proofs.Instance.Expand
import Horn.Proofs.Instance.WellFormed
import Horn.Proofs.Semantics.Engine

/-!
# What is accumulated

`Accumulator.absorb` is the accumulator that merging a map of definitions leaves, as a function:
each entry is extended by what the map has for its predicate (`fragments_absorb`). Merging fails
with the first handle that is wrong, and what comes before is absorbed (`runFrom_merge`). It does
not fail for handles of predicates (`merge_runs`).

Merging drops fragments that are true, that are there already, or that come after a false one, and a
false fragment replaces all others. Yet the conjunction of the fragments of a predicate always
means: the conjunction before, and all that was merged. This is `sat_extend` for one fragment,
`sat_foldl_extend` for many, and `sat_absorb` for a map.
-/

namespace Horn

variable {engine : Engine}

/-! ### The truth of fragments -/

namespace Engine

/-- What simplifies to `true` is true. -/
theorem Simplifies.sat_of_truth? (h : engine.Simplifies) {t : Term} (ht : t.IsFormula)
    (htrue : engine.truth? t = some true) {U : Universe} (M : Structure U) : M.Sat t := by
  unfold truth? at htrue
  dsimp only at htrue
  split at htrue
  · next hv => exact (h.sat_iff ht M).1 (M.sat_of_isVerum hv)
  · split at htrue <;> cases htrue

/-- What simplifies to `false` is not true. -/
theorem Simplifies.not_sat_of_truth? (h : engine.Simplifies) {t : Term} (ht : t.IsFormula)
    (hfalse : engine.truth? t = some false) {U : Universe} (M : Structure U) : ¬M.Sat t := by
  unfold truth? at hfalse
  dsimp only at hfalse
  split at hfalse
  · cases hfalse
  · split at hfalse
    · next hf => exact fun hsat => M.not_sat_of_isFalsum hf ((h.sat_iff ht M).2 hsat)
    · cases hfalse

end Engine

namespace Definitions

/-- The formulas that are entered for a predicate. -/
def formulas (defs : Definitions) (p : Int) : List Term :=
  (defs.filter (·.1 == p)).map (·.2)

theorem mem_formulas {defs : Definitions} {p : Int} {t : Term} :
    t ∈ defs.formulas p ↔ (p, t) ∈ defs := by
  unfold formulas
  simp only [List.mem_map, List.mem_filter, beq_iff_eq]
  constructor
  · rintro ⟨⟨_, _⟩, ⟨he, rfl⟩, rfl⟩
    exact he
  · -- The other direction names the entry.
    intro h
    exact ⟨(p, t), ⟨h, rfl⟩, rfl⟩

theorem formulas_append (defs rest : Definitions) (p : Int) :
    (defs ++ rest).formulas p = defs.formulas p ++ rest.formulas p := by
  unfold formulas
  rw [List.filter_append, List.map_append]

end Definitions

/-! ### Handles of a map -/

/-- The first fault of the handles of a map, if one of them is not that of a predicate. -/
def Instance.checkHandles (top : Instance) (model : Definitions) : Except Fault Unit :=
  model.forM fun e => (top.isKnown e.1).map fun _ => ()

theorem Instance.checkHandles_cons (top : Instance) (e : Int × Term) (model : Definitions) :
    top.checkHandles (e :: model) = (top.isKnown e.1).bind fun _ => top.checkHandles model := by
  unfold checkHandles
  simp only [List.forM_eq_forM, List.forM_cons]
  cases top.isKnown e.1 <;> rfl

/-- Only the predicates of the instance matter. -/
theorem Instance.checkHandles_congr {top top' : Instance} (h : top.preds = top'.preds)
    (model : Definitions) : top.checkHandles model = top'.checkHandles model := by
  unfold checkHandles isKnown pred
  rw [h]

theorem Instance.checkHandles_eq_ok {top : Instance} {model : Definitions} :
    top.checkHandles model = .ok () ↔ ∀ e ∈ model, ∃ b, top.isKnown e.1 = .ok b := by
  constructor
  · intro h e he
    have hone := forM_ok h e he
    cases hb : top.isKnown e.1 with
    | error f =>
      rw [hb] at hone
      cases hone
    | ok b => exact ⟨b, rfl⟩
  · intro h
    refine forM_eq_ok fun e he => ?_
    obtain ⟨b, hb⟩ := h e he
    rw [hb]
    rfl

namespace Accumulator

/-- The fragments of an accumulator, for the predicates of a table. -/
def reading (m : Accumulator) : Nat → List Term := fun p => m.fragments p

/-- What is known together with the formulas of a map. -/
def joined (m : Accumulator) (model : Definitions) : Nat → List Term :=
  fun p => m.fragments p ++ Definitions.formulas model p

/-! ### One fragment -/

/-- Setting the entry of a predicate changes that one only. -/
theorem find?_put (m : Accumulator) (p q : Int) (fs : List Term) :
    (m.put p fs).find? (·.1 == q) = if q = p then some (p, fs) else m.find? (·.1 == q) := by
  unfold put
  split
  · next hhas =>
    -- An entry keeps its place, so the same entry is found.
    have hkey : ((·.1 == q) ∘ fun e : Int × List Term => if e.1 == p then (p, fs) else e) =
        (·.1 == q) := by
      funext e
      by_cases he : e.1 = p <;> simp [he]
    rw [List.find?_map, hkey]
    cases he : m.find? (·.1 == q) with
    | none =>
      have hqp : q ≠ p := by
        rintro rfl
        rw [has, List.any_eq_true] at hhas
        obtain ⟨e, hem, hep⟩ := hhas
        exact List.find?_eq_none.1 he e hem hep
      rw [if_neg hqp]
      rfl
    | some e =>
      have heq : e.1 = q := by simpa using List.find?_some he
      -- The entry that is found is the one that was set, or another one, which stays.
      by_cases hqp : q = p
      · simp [heq, hqp]
      · simp [heq, hqp]
  · next hhas =>
    -- A predicate without an entry gets one at the end.
    rw [List.find?_append]
    by_cases hqp : q = p
    · have hnone : m.find? (·.1 == q) = none := by
        rw [List.find?_eq_none]
        intro e he hep
        exact hhas (List.any_eq_true.2 ⟨e, he, hqp ▸ hep⟩)
      rw [hnone, hqp, if_pos rfl]
      simp
    · have hlast : [(p, fs)].find? (fun e => e.1 == q) = none := by simp [Ne.symm hqp]
      rw [hlast, Option.or_none, if_neg hqp]

theorem fragments_put (m : Accumulator) (p q : Int) (fs : List Term) :
    (m.put p fs).fragments q = if q = p then fs else m.fragments q := by
  unfold fragments
  rw [find?_put]
  split <;> rfl

/-- New fragments are old ones or the one that has been learned. -/
theorem mem_extend {fs : List Term} {t u : Term} (h : u ∈ extend engine fs t) :
    u ∈ fs ∨ u = t := by
  unfold extend at h
  split at h
  · exact .inl h
  · exact .inr (List.mem_singleton.1 h)
  · split at h
    · exact .inl h
    · rw [List.mem_append, List.mem_singleton] at h
      exact h

/-- **One fragment more.** The conjunction of the fragments becomes stronger by exactly the fragment
that has been learned. -/
theorem sat_extend (hS : engine.Simplifies) {fs : List Term} {t : Term}
    (hfs : ∀ u ∈ fs, u.IsFormula) (ht : t.IsFormula) {U : Universe} (M : Structure U) :
    (∀ u ∈ extend engine fs t, M.Sat u) ↔ (∀ u ∈ fs, M.Sat u) ∧ M.Sat t := by
  unfold extend
  split
  · -- A fragment that is true adds nothing.
    next htrue => exact ⟨fun h => ⟨h, hS.sat_of_truth? ht htrue M⟩, And.left⟩
  · next hfalse =>
    -- A false one replaces all others: both conjunctions are false.
    have hnot := hS.not_sat_of_truth? ht hfalse M
    rw [List.forall_mem_singleton]
    exact ⟨fun h => absurd h hnot, fun h => absurd h.2 hnot⟩
  · split
    · next hcov =>
      -- The fragment is there already, or all is false already.
      refine ⟨fun h => ⟨h, ?_⟩, And.left⟩
      obtain ⟨u, hu, hut⟩ := List.any_eq_true.1 hcov
      rw [Bool.or_eq_true, beq_iff_eq, beq_iff_eq] at hut
      rcases hut with rfl | hfalse
      · exact h u hu
      · exact absurd (h u hu) (hS.not_sat_of_truth? (hfs u hu) hfalse M)
    · rw [List.forall_mem_append, List.forall_mem_singleton]

/-! ### Many fragments -/

theorem mem_foldl_extend {ts fs : List Term} {u : Term} (h : u ∈ ts.foldl (extend engine) fs) :
    u ∈ fs ∨ u ∈ ts := by
  induction ts generalizing fs with
  | nil => exact .inl h
  | cons t ts ih =>
    rcases ih h with hu | hu
    · rcases mem_extend hu with hu | rfl
      · exact .inl hu
      · exact .inr List.mem_cons_self
    · exact .inr (List.mem_cons_of_mem t hu)

/-- **The conjunction** becomes stronger by exactly the fragments that have been learned. -/
theorem sat_foldl_extend (hS : engine.Simplifies) {fs ts : List Term}
    (hfs : ∀ u ∈ fs, u.IsFormula) (hts : ∀ t ∈ ts, t.IsFormula) {U : Universe} (M : Structure U) :
    (∀ u ∈ ts.foldl (extend engine) fs, M.Sat u) ↔ (∀ u ∈ fs, M.Sat u) ∧ ∀ t ∈ ts, M.Sat t := by
  induction ts generalizing fs with
  | nil => exact (and_iff_left (List.forall_mem_nil _)).symm
  | cons t ts ih =>
    rw [List.forall_mem_cons] at hts
    have hform : ∀ u ∈ extend engine fs t, u.IsFormula := by
      intro u hu
      rcases mem_extend hu with hu | rfl
      · exact hfs u hu
      · exact hts.1
    rw [List.foldl_cons, ih hform hts.2, sat_extend hS hfs hts.1, List.forall_mem_cons, and_assoc]

/-! ### Maps -/

/-- The accumulator that merging a map leaves. -/
def absorb (engine : Engine) (top : Instance) (m : Accumulator) (model : Definitions) :
    Accumulator :=
  model.foldl
    (fun m e => match top.isKnown e.1 with
      | .ok false => m.put e.1 (extend engine (m.fragments e.1) e.2)
      | _ => m) m

theorem absorb_cons (top : Instance) (m : Accumulator) (e : Int × Term) (model : Definitions) :
    absorb engine top m (e :: model) = absorb engine top (absorb engine top m [e]) model := rfl

/-- Only the predicates of the instance matter. -/
theorem absorb_congr {top top' : Instance} (h : top.preds = top'.preds) (m : Accumulator)
    (model : Definitions) : absorb engine top m model = absorb engine top' m model := by
  unfold absorb Instance.isKnown Instance.pred
  rw [h]

/-- Whether a handle is one of an undefined predicate of the instance. -/
def isUndefined (top : Instance) (p : Int) : Bool :=
  match top.isKnown p with
  | .ok known => !known
  | .error _ => false

/-- The entries of a model that are for undefined predicates of the instance. -/
def undefined (top : Instance) (model : Definitions) : Definitions :=
  model.filter fun e => isUndefined top e.1

theorem absorb_singleton (top : Instance) (m : Accumulator) (e : Int × Term) :
    absorb engine top m [e] =
      if isUndefined top e.1 then m.put e.1 (extend engine (m.fragments e.1) e.2) else m := by
  rw [absorb, List.foldl_cons, List.foldl_nil, isUndefined]
  cases top.isKnown e.1 with
  | error f => rfl
  | ok known => cases known <;> rfl

theorem undefined_cons (top : Instance) (e : Int × Term) (model : Definitions) :
    undefined top (e :: model) =
      if isUndefined top e.1 then e :: undefined top model else undefined top model :=
  List.filter_cons

/-- The entry of a predicate is extended by what a model has for it, unless it is defined. -/
theorem fragments_absorb {top : Instance} (m : Accumulator) (model : Definitions) (p : Int) :
    (absorb engine top m model).fragments p =
      (Definitions.formulas (undefined top model) p).foldl (extend engine) (m.fragments p) := by
  induction model generalizing m with
  | nil => rfl
  | cons e model ih =>
    obtain ⟨q, t⟩ := e
    rw [absorb_cons, ih, undefined_cons, absorb_singleton]
    -- The formula counts for its own predicate only, and not if that is defined.
    by_cases hq : isUndefined top q = true
    · rw [if_pos hq, if_pos hq, fragments_put, Definitions.formulas, Definitions.formulas,
        List.filter_cons]
      by_cases hqp : q = p
      · simp [hqp]
      · simp [hqp, Ne.symm hqp]
    · rw [if_neg hq, if_neg hq]

/-! ### Merging -/

/-- Recording a fragment of a predicate does not fail. -/
theorem runFrom_add (engine : Engine) {top : Instance} {p : Int} {q : Predicate}
    (hp : top.pred p = .ok q) (t : Term) (w : World Accumulator) :
    ∃ log, (add engine top p t).runFrom w =
      (.ok (), w.1.put p (extend engine (w.1.fragments p) t), log) := by
  unfold add
  rw [Act.runFrom_bind_of_ok (Act.runFrom_get w), Act.runFrom_bind_of_ok (Act.runFrom_set _ w)]
  split
  · rw [hp, Act.runFrom_bind_of_ok (Act.runFrom_ofExcept _ _)]
    exact ⟨_, rfl⟩
  · exact ⟨_, rfl⟩

/-- What is known to be defined or not is a predicate. -/
theorem pred_of_isKnown {top : Instance} {p : Int} {b : Bool} (h : top.isKnown p = .ok b) :
    ∃ q, top.pred p = .ok q ∧ q.definition.isSome = b := by
  obtain ⟨q, hq, h⟩ := bind_eq_ok.1 h
  cases h
  exact ⟨q, hq, rfl⟩

/-- Merging one entry does not fail for a handle of a predicate. -/
theorem runFrom_mergeEntry (engine : Engine) {top : Instance} {p : Int} {b : Bool}
    (h : top.isKnown p = .ok b) (t : Term) (w : World Accumulator) :
    ∃ log, (merge engine top [(p, t)]).runFrom w =
      (.ok (), absorb engine top w.1 [(p, t)], log) := by
  unfold merge absorb
  rw [List.forM_eq_forM, List.forM_cons, List.foldl_cons, List.foldl_nil, List.forM_nil]
  dsimp only
  rw [h]
  cases b with
  -- Entries of defined predicates are passed over.
  | true => exact ⟨_, rfl⟩
  | false =>
    obtain ⟨q, hq, -⟩ := pred_of_isKnown h
    obtain ⟨log, hlog⟩ := runFrom_add engine hq t w
    exact ⟨log, Act.runFrom_bind_of_ok hlog _⟩

/-- Merging one entry fails for a handle of no predicate, and leaves everything as it is. -/
theorem runFrom_mergeEntry_error (engine : Engine) {top : Instance} {p : Int} {e : Fault}
    (h : top.isKnown p = .error e) (t : Term) (w : World Accumulator) :
    (merge engine top [(p, t)]).runFrom w = (.error e, w) := by
  unfold merge
  rw [List.forM_eq_forM, List.forM_cons]
  dsimp only
  rw [h]
  rfl

theorem merge_cons (top : Instance) (e : Int × Term) (model : Definitions) :
    merge engine top (e :: model) = merge engine top [e] >>= fun _ => merge engine top model := by
  unfold merge
  simp only [List.forM_eq_forM, List.forM_cons, List.forM_nil, bind_assoc, pure_bind]

/-- The entries of a map before the first one that is for no predicate. -/
def reached (top : Instance) (model : Definitions) : Definitions :=
  model.takeWhile fun e => (top.isKnown e.1).isOk

theorem reached_cons {top : Instance} {e : Int × Term} {b : Bool} (h : top.isKnown e.1 = .ok b)
    (model : Definitions) : reached top (e :: model) = e :: reached top model := by
  refine List.takeWhile_cons_of_pos ?_
  rw [h]
  rfl

theorem reached_of_error {top : Instance} {e : Int × Term} {f : Fault}
    (h : top.isKnown e.1 = .error f) (model : Definitions) : reached top (e :: model) = [] := by
  refine List.takeWhile_cons_of_neg ?_
  rw [h]
  exact Bool.false_ne_true

/-- Where no handle is wrong all entries are reached. -/
theorem reached_of_checkHandles {top : Instance} {model : Definitions}
    (h : top.checkHandles model = .ok ()) : reached top model = model := by
  induction model with
  | nil => rfl
  | cons e model ih =>
    obtain ⟨b, hb⟩ := Instance.checkHandles_eq_ok.1 h e List.mem_cons_self
    rw [Instance.checkHandles_cons, hb] at h
    rw [reached_cons hb, ih h]

/-- **Merging.** It fails with the first handle that is not one of a predicate, and what has been
reached until then is absorbed. -/
theorem runFrom_merge (engine : Engine) (top : Instance) (model : Definitions)
    (w : World Accumulator) : ∃ log, (merge engine top model).runFrom w =
      (top.checkHandles model, absorb engine top w.1 (reached top model), log) := by
  induction model generalizing w with
  | nil => exact ⟨w.2, rfl⟩
  | cons e model ih =>
    rw [merge_cons, Instance.checkHandles_cons]
    cases hb : top.isKnown e.1 with
    | error f =>
      -- The loop ends at a handle that is not one of a predicate, and absorbs nothing more.
      refine ⟨w.2, ?_⟩
      rw [Act.runFrom_bind, runFrom_mergeEntry_error engine hb e.2 w, reached_of_error hb]
      rfl
    | ok b =>
      obtain ⟨log, hlog⟩ := runFrom_mergeEntry engine hb e.2 w
      obtain ⟨log', hmerge⟩ := ih (absorb engine top w.1 [e], log)
      refine ⟨log', ?_⟩
      rw [Act.runFrom_bind_of_ok hlog, hmerge, reached_cons hb]
      rfl

/-- A successful merge leaves the map absorbed. -/
theorem merge_ok {top : Instance} {model : Definitions} {w w' : World Accumulator}
    (h : (merge engine top model).runFrom w = (.ok (), w')) :
    w'.1 = absorb engine top w.1 model := by
  obtain ⟨log, hmerge⟩ := runFrom_merge engine top model w
  obtain ⟨hcheck, hw⟩ := Prod.mk.inj (h.symm.trans hmerge)
  rw [hw, reached_of_checkHandles hcheck.symm]

/-- Merging does not fail for handles of predicates. -/
theorem merge_runs {top : Instance} {model : Definitions}
    (h : ∀ e ∈ model, ∃ b, top.isKnown e.1 = .ok b) (w : World Accumulator) :
    ∃ log, (merge engine top model).runFrom w = (.ok (), absorb engine top w.1 model, log) := by
  have hcheck := Instance.checkHandles_eq_ok.2 h
  obtain ⟨log, hmerge⟩ := runFrom_merge engine top model w
  rw [hcheck, reached_of_checkHandles hcheck] at hmerge
  exact ⟨log, hmerge⟩

/-! ### Undefined predicates -/

/-- The handle of an undefined predicate is known not to be defined. -/
theorem isKnown_eq_false {top : Instance} {p : Nat} {q : Predicate}
    (hp : top.preds[p]? = some q) (hq : q.definition = none) :
    top.isKnown (p : Int) = .ok false := by
  rw [Instance.isKnown, Instance.pred, atHandle_natCast, hp]
  change Except.ok q.definition.isSome = _
  rw [hq]
  rfl

/-- What is collected from a candidate, where nothing is defined, is about undefined predicates. -/
theorem isKnown_of_collected {top left : Instance} (hp : top.preds = left.preds)
    (hundef : ∀ q ∈ left.preds, q.definition = none) {candidate defs : Definitions}
    (hc : left.IsDraft candidate) (h : left.collected engine candidate = .ok defs) :
    ∀ e ∈ defs, top.isKnown e.1 = .ok false := by
  replace h := (Instance.collected_of_undefined engine hundef hc).ok h
  rw [Except.ok.injEq] at h
  intro e he
  -- Simplifying keeps the handles.
  obtain ⟨e', he', hkey⟩ : ∃ e' ∈ candidate, e'.1 = e.1 := by
    rw [← h] at he
    split at he
    · obtain ⟨e', he', rfl⟩ := List.mem_map.1 he
      exact ⟨e', he', rfl⟩
    · exact ⟨e, he, rfl⟩
  obtain ⟨⟨i, hi, hlt⟩, -⟩ := hc e' he'
  rw [← hkey, hi]
  refine isKnown_eq_false ?_ (hundef _ (List.getElem_mem hlt))
  rw [hp]
  exact List.getElem?_eq_getElem hlt

/-- For an undefined predicate nothing is passed over. -/
theorem formulas_undefined {top : Instance} {p : Nat} {q : Predicate}
    (hp : top.preds[p]? = some q) (hq : q.definition = none) (model : Definitions) :
    (undefined top model).formulas p = model.formulas p := by
  have hundefined : isUndefined top p = true := by
    rw [isUndefined, isKnown_eq_false hp hq]
    rfl
  unfold Definitions.formulas undefined
  rw [List.filter_filter]
  refine congrArg (List.map _) (List.filter_congr fun e _ => ?_)
  by_cases he : e.1 = p
  · simp [he, hundefined]
  · simp [he]

/-- An entry only adds to the fragments of its own predicate. -/
theorem fragments_absorb_single {top : Instance} {p : Nat} {q : Predicate}
    (hp : top.preds[p]? = some q) (hq : q.definition = none) (m : Accumulator) (r : Int)
    (t : Term) :
    (absorb engine top m [(r, t)]).fragments p =
      if r = p then extend engine (m.fragments p) t else m.fragments p := by
  rw [fragments_absorb, formulas_undefined hp hq, Definitions.formulas, List.filter_cons]
  by_cases he : r = p
  · simp [he]
  · simp [he]

/-- **What is absorbed.** The fragments of an undefined predicate are formulas, and their
conjunction becomes stronger by exactly the formulas that the map has for it. -/
theorem sat_absorb (hS : engine.Simplifies) {top : Instance} {p : Nat} {q : Predicate}
    (hp : top.preds[p]? = some q) (hq : q.definition = none) {model : Definitions}
    (hmodel : ∀ t ∈ model.formulas p, t.IsFormula) {m : Accumulator}
    (hm : ∀ t ∈ m.fragments p, t.IsFormula) :
    (∀ t ∈ (absorb engine top m model).fragments p, t.IsFormula) ∧
      ∀ {U : Universe} (M : Structure U),
        (∀ t ∈ (absorb engine top m model).fragments p, M.Sat t) ↔
          (∀ t ∈ m.fragments p, M.Sat t) ∧ ∀ t ∈ model.formulas p, M.Sat t := by
  have hfragments : (absorb engine top m model).fragments p =
      (model.formulas p).foldl (extend engine) (m.fragments p) := by
    rw [fragments_absorb, formulas_undefined hp hq]
  rw [hfragments]
  refine ⟨fun t ht => ?_, fun M => sat_foldl_extend hS hm hmodel M⟩
  rcases mem_foldl_extend ht with ht | ht
  · exact hm t ht
  · exact hmodel t ht

end Accumulator
end Horn
