import Horn.Proofs.Coupled
import Horn.Proofs.Instance.Meaning
import Horn.Proofs.Learner.Soundness

/-!
# Equivalent models

Two formulas are equivalent, relative to a table of predicates, if they are true in the same
structures among those in which every defined predicate is as its definition says
(`Term.Equivalent`). Partial models are equivalent if they have equivalent formulas for the same
predicates in the same order (`Definitions.Equivalent`), and accumulators if for the same predicates
they have fragments with equivalent conjunctions (`Accumulator.Equivalent`). The fragments
themselves may differ in form and in number.

Merging equivalent models into equivalent accumulators ends alike, with equivalent accumulators
(`Accumulator.merge_alike`). Expanding and simplifying the formulas of a model gives an equivalent
one (`Instance.exists_simplified`), so what is collected from a candidate does not depend on whether
it is expanded and simplified (`Instance.exists_collected`).
-/

namespace Horn

variable {preds : List Predicate}

/-! ### Formulas and models -/

/-- Formulas that are true in the same structures, of those that read the definitions. -/
structure Term.Equivalent (preds : List Predicate) (t u : Term) : Prop where
  left : t.IsFormula
  right : u.IsFormula
  sat_iff : ∀ {U : Universe} {M : Structure U}, M.ReadsDefinitions preds → (M.Sat t ↔ M.Sat u)

theorem Term.Equivalent.refl {t : Term} (h : t.IsFormula) : Term.Equivalent preds t t :=
  ⟨h, h, fun _ => Iff.rfl⟩

/-- Equivalent formulas for the same predicates. -/
def Definitions.Equivalent (preds : List Predicate) (model model' : Definitions) : Prop :=
  List.Forall₂ (fun e e' => e.1 = e'.1 ∧ Term.Equivalent preds e.2 e'.2) model model'

theorem Definitions.Equivalent.refl {model : Definitions} (h : ∀ e ∈ model, e.2.IsFormula) :
    Definitions.Equivalent preds model model :=
  List.forall₂_same.2 fun e he => ⟨rfl, .refl (h e he)⟩

/-! ### Accumulators -/

namespace Accumulator

/-- Entries for the same predicates, with equivalent conjunctions. -/
structure Equivalent (preds : List Predicate) (m m' : Accumulator) : Prop where
  keys : m.map (·.1) = m'.map (·.1)
  left : ∀ p, ∀ t ∈ m.fragments p, t.IsFormula
  right : ∀ p, ∀ t ∈ m'.fragments p, t.IsFormula
  sat_iff : ∀ {U : Universe} {M : Structure U}, M.ReadsDefinitions preds → ∀ p,
    (∀ t ∈ m.fragments p, M.Sat t) ↔ ∀ t ∈ m'.fragments p, M.Sat t

theorem equivalent_empty : Equivalent preds empty empty :=
  ⟨rfl, fun _ _ h => absurd h List.not_mem_nil, fun _ _ h => absurd h List.not_mem_nil,
    fun _ _ => Iff.rfl⟩

/-- The candidate definitions are equivalent. -/
theorem Equivalent.conjunction {m m' : Accumulator} (h : Equivalent preds m m') {U : Universe}
    {M : Structure U} (hM : M.ReadsDefinitions preds) (p : Int) :
    M.Sat (m.conjunction p) ↔ M.Sat (m'.conjunction p) := by
  rw [Accumulator.conjunction, Accumulator.conjunction, sat_conjoin, sat_conjoin]
  exact h.sat_iff hM p

/-- Whether there is an entry is a matter of the predicates. -/
theorem has_congr {m m' : Accumulator} (h : m.map (·.1) = m'.map (·.1)) (p : Int) :
    m.has p = m'.has p := by
  have hmap : ∀ m : Accumulator, m.has p = (m.map (·.1)).any (· == p) := fun m => by
    rw [List.any_map]
    rfl
  rw [hmap, hmap, h]

/-- The predicates after an entry has been set. -/
theorem keys_put (m : Accumulator) (p : Int) (fs : List Term) :
    (m.put p fs).map (·.1) = if m.has p then m.map (·.1) else m.map (·.1) ++ [p] := by
  unfold put
  split
  · rw [List.map_map]
    refine List.map_congr_left fun e _ => ?_
    -- An entry that is replaced is one of the same predicate.
    by_cases he : e.1 = p <;> simp [he]
  · rw [List.map_append, List.map_singleton]

/-- **One entry more.** Equivalent formulas make equivalent accumulators. -/
theorem Equivalent.extend {engine : Engine} (hS : engine.Simplifies) {m m' : Accumulator}
    (h : Equivalent preds m m') {t t' : Term} (ht : Term.Equivalent preds t t') (p : Int) :
    Equivalent preds (m.put p (extend engine (m.fragments p) t))
      (m'.put p (extend engine (m'.fragments p) t')) := by
  have hform : ∀ {m : Accumulator} {t : Term}, (∀ q, ∀ u ∈ m.fragments q, u.IsFormula) →
      t.IsFormula → ∀ q, ∀ u ∈ (m.put p (Accumulator.extend engine (m.fragments p) t)).fragments q,
        u.IsFormula := by
    intro m t hm ht q u hu
    rw [fragments_put] at hu
    split at hu
    · rcases mem_extend hu with hu | rfl
      · exact hm p u hu
      · exact ht
    · exact hm q u hu
  refine ⟨?_, hform h.left ht.left, hform h.right ht.right, fun {U M} hM q => ?_⟩
  · rw [keys_put, keys_put, has_congr h.keys, h.keys]
  · rw [fragments_put, fragments_put]
    split
    · -- Both conjunctions become stronger by what was learned.
      rw [sat_extend hS (h.left p) ht.left, sat_extend hS (h.right p) ht.right, h.sat_iff hM p,
        ht.sat_iff hM]
    · exact h.sat_iff hM q

/-- **Merging** equivalent models into equivalent accumulators ends alike. -/
theorem merge_alike {engine : Engine} (hS : engine.Simplifies) {top top' : Instance}
    (htop : top.preds = top'.preds) {model model' : Definitions}
    (hmodel : Definitions.Equivalent preds model model') {w w' : World Accumulator}
    (h : Equivalent preds w.1 w'.1) :
    Act.Alike (Equivalent preds) (fun _ _ => Equivalent preds)
      ((merge engine top model).runFrom w) ((merge engine top' model').runFrom w') := by
  induction hmodel generalizing w w' with
  | nil => exact .done h
  | @cons e e' model model' he _ ih =>
    rw [merge_cons top e model, merge_cons top' e' model']
    refine Act.Alike.bind (Q := fun _ _ => Equivalent preds) ?_ ih
    obtain ⟨p, t⟩ := e
    obtain ⟨p', t'⟩ := e'
    obtain ⟨hp, ht⟩ := he
    obtain rfl : p = p' := hp
    -- Both top-level instances know the same of the predicate.
    have hknown : top'.isKnown p = top.isKnown p := by
      rw [Instance.isKnown, Instance.isKnown, Instance.pred, Instance.pred, htop]
    cases hb : top.isKnown p with
    | error f =>
      rw [runFrom_mergeEntry_error engine hb, runFrom_mergeEntry_error engine (hknown.trans hb)]
      exact .failed h
    | ok b =>
      obtain ⟨log, hlog⟩ := runFrom_mergeEntry engine hb t w
      obtain ⟨log', hlog'⟩ := runFrom_mergeEntry engine (hknown.trans hb) t' w'
      rw [hlog, hlog']
      refine .done ?_
      dsimp only
      unfold absorb
      rw [List.foldl_cons, List.foldl_nil, List.foldl_cons, List.foldl_nil]
      dsimp only
      rw [hknown, hb]
      -- Entries of defined predicates are passed over.
      cases b with
      | true => exact h
      | false => exact h.extend hS ht p

end Accumulator

/-! ### What is collected -/

namespace Instance

variable {inst : Instance}

/-- A defined predicate with its own definition, over the formal parameters, is a formula. -/
theorem Completes.isFormula (hfit : inst.FittingDefinitions) {e : Int × Term}
    (h : inst.Completes e) : e.2.IsFormula := by
  obtain ⟨i, q, d, -, hq, hd, happly⟩ := h
  have hqfit := hfit q (List.mem_of_getElem? hq) d hd
  -- The formal parameters fit the definition as arguments.
  have hsorts : (q.params.map Term.const).map Term.sort = d.params.map (·.sort) := by
    rw [hqfit.params, ← q.sorts_params, List.map_map]
    rfl
  have hparams : ∀ a ∈ q.params.map Term.const, a.isWellSorted [] = true := by
    rw [List.forall_mem_map]
    exact fun _ _ => rfl
  have hσ := Term.isSubstitution_zip hsorts hparams
  rw [Definition.apply_of_sorts hsorts] at happly
  rw [← Except.ok.inj happly]
  refine ⟨?_, Term.isWellSorted_replace hσ hqfit.body.wellSorted⟩
  rw [Term.isBool, Term.substitute, Term.sort_replace hσ 0 d.body]
  exact hqfit.body.isBool

/-- A candidate is completed to a map of formulas. -/
theorem isFormula_of_definitionsFrom (hfit : inst.FittingDefinitions)
    {candidate defs : Definitions} (hw : ∀ e ∈ candidate, e.2.isWellSorted [] = true)
    (h : inst.definitionsFrom candidate = .ok defs) : ∀ e ∈ defs, e.2.IsFormula := by
  have hbool := isBool_of_definitionsFrom h
  obtain ⟨rest, rfl, hrest⟩ := definitionsFrom_ok h
  rw [List.forall_mem_append]
  exact ⟨fun e he => ⟨hbool e he, hw e he⟩, fun e he => (hrest e he).isFormula hfit⟩

/-- **Expanding and simplifying** formulas does not fail if the engine takes the calls that rebuild
them, and gives equivalent ones. -/
theorem exists_simplified {engine : Engine} (hS : engine.Simplifies)
    (hcall : engine.callable.Reapplies) (hfit : inst.FittingDefinitions) {defs : Definitions}
    (h : ∀ e ∈ defs, e.2.IsFormula) :
    ∃ defs', inst.simplified engine defs = .ok defs' ∧
      Definitions.Equivalent inst.preds defs defs' := by
  induction defs with
  | nil => exact ⟨[], rfl, .nil⟩
  | cons e defs ih =>
    rw [List.forall_mem_cons] at h
    obtain ⟨u, hu, hstands⟩ := exists_expand hcall hfit (closed_true inst) h.1.wellSorted
      (among_true _)
    obtain ⟨defs', hdefs', hequiv⟩ := ih h.2
    have hform : u.IsFormula := by
      refine ⟨?_, hstands.wellSorted⟩
      rw [Term.isBool, hstands.sort]
      exact h.1.isBool
    refine ⟨(e.1, engine.simplify u) :: defs', ?_, .cons ⟨rfl, h.1, hS.isFormula hform, ?_⟩ hequiv⟩
    · rw [simplified, hu, hdefs']
      rfl
    · -- The expansion means the same where the definitions are read, and its simplification too.
      intro U M hM
      rw [hS.sat_iff hform, Structure.Sat, Structure.Sat, hstands.eval (hM.readsOn _)]

/-- Completing a candidate is a matter of the predicates. -/
theorem definitionsFrom_congr {inst' : Instance} (h : inst'.preds = inst.preds)
    (candidate : Definitions) :
    inst'.definitionsFrom candidate = inst.definitionsFrom candidate := by
  unfold definitionsFrom
  rw [h]

/-- From a part that somebody holds the completed candidate is collected as it is. -/
theorem collected_of_shared (engine : Engine) (h : inst.isExclusive = false)
    (candidate : Definitions) :
    inst.collected engine candidate = inst.definitionsFrom candidate := by
  unfold collected
  rw [h]
  cases inst.definitionsFrom candidate <;> rfl

/-- **What is collected** is equivalent to the completed candidate, whoever holds the part. -/
theorem exists_collected {engine : Engine} (hS : engine.Simplifies)
    (hcall : engine.callable.Reapplies) (hfit : inst.FittingDefinitions)
    {candidate defs : Definitions} (hw : ∀ e ∈ candidate, e.2.isWellSorted [] = true)
    (h : inst.definitionsFrom candidate = .ok defs) :
    ∃ defs', inst.collected engine candidate = .ok defs' ∧
      Definitions.Equivalent inst.preds defs defs' := by
  have hform := isFormula_of_definitionsFrom hfit hw h
  unfold collected
  rw [h, ok_bind]
  split
  · exact exists_simplified hS hcall hfit hform
  · exact ⟨defs, rfl, .refl hform⟩

end Instance
end Horn
