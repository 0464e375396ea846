import Horn.Proofs.Learner.Rules

/-!
# Constants with the name of the error

The error of a rule system is a relation with a name, and names are not kept apart. A free constant
of the instance that has this name is read twice: the clauses quantify it universally, while in the
rules it is the relation that is to be false.

The two readings agree if the error is a predicate of the instance, or no clause and no definition
mentions it (`Instance.ErrorApart`). Then only structures in which the error is false need be looked
at (`Instance.ErrorApart.satisfies`), and in the others it is the error of a predicate, of which the
rules say nothing unless it is undefined (`RuleSystem.exists_completes_excluding`).
-/

namespace Horn

variable {U : Universe} {preds : List Predicate}

namespace Structure

/-! ### Parts of a clause -/

section Congruence

variable {F : Symbol → Prop} {M N : Structure U}

/-- An application is as true in a structure that agrees on its symbols. -/
theorem applies_congr (h : Agree F M N) (hpreds : ∀ q ∈ preds, F q.symbol) {a : Nat × List Term}
    (ha : ∀ t ∈ a.2, ∀ f ∈ t.symbols, F f) : M.Applies preds a ↔ N.Applies preds a := by
  refine exists₂_congr fun q t => and_congr_right fun hq => and_congr_right fun ht => ?_
  obtain ⟨args, rfl, hargs⟩ := Symbol.app?_spec ht
  refine sat_congr (h.mono fun f hf => ?_)
  -- The symbol is the predicate, or one of an argument as it was given.
  rw [Term.symbols, Term.symbolsList_eq_flatMap, (Term.castAll?_spec hargs).2.1, List.mem_cons,
    List.mem_flatMap] at hf
  rcases hf with rfl | ⟨u, hu, hf⟩
  · exact hpreds q (List.mem_of_getElem? hq)
  · exact ha u hu f hf

/-- A clause is as true in a structure that agrees on its symbols. -/
theorem satClause_congr (h : Agree F M N) (hpreds : ∀ q ∈ preds, F q.symbol) {c : Clause}
    (hc : ∀ t ∈ c.parts, ∀ f ∈ t.symbols, F f) : M.SatClause preds c ↔ N.SatClause preds c := by
  have hterms : ∀ t ∈ c.terms, (M.Sat t ↔ N.Sat t) := fun t ht =>
    sat_congr (h.mono (hc t (Clause.mem_parts_of_term ht)))
  have happs : ∀ a ∈ c.apps, (M.Applies preds a ↔ N.Applies preds a) := fun a ha =>
    applies_congr h hpreds fun t ht => hc t (Clause.mem_parts_of_app ha ht)
  have hconclusion : ∀ a ∈ c.conclusion, (M.Applies preds a ↔ N.Applies preds a) := fun a ha =>
    applies_congr h hpreds fun t ht => hc t (Clause.mem_parts_of_conclusion ha ht)
  refine imp_congr ⟨fun hb => ?_, fun hb => ?_⟩
    (exists_congr fun a => and_congr_right (hconclusion a))
  · exact ⟨fun t ht => (hterms t ht).1 (hb.terms t ht), fun a ha => (happs a ha).1 (hb.apps a ha)⟩
  · exact ⟨fun t ht => (hterms t ht).2 (hb.terms t ht), fun a ha => (happs a ha).2 (hb.apps a ha)⟩

end Congruence

/-! ### A symbol made false -/

variable {M : Structure U} {f : Symbol} {J : Interpretation preds}

/-- The structure in which a symbol holds of nothing. -/
noncomputable def without (M : Structure U) (f : Symbol) : Structure U :=
  M.relate fun g => if g = f then some fun _ => False else none

theorem agree_without (M : Structure U) (f : Symbol) : Agree (· ≠ f) (M.without f) M :=
  (agree_relate M _).mono fun _ hg => if_neg hg

theorem symbol_without (M : Structure U) (as : List (Element U)) :
    (M.without f).symbol f as = (Element.truth False).get f.range := by
  unfold without relate
  simp only [if_pos]

/-- A structure still reads an interpretation when a constant that no definition mentions becomes
false. -/
theorem Reads.without (hM : M.Reads J) (hf : f.domain = []) (hpred : ∀ q ∈ preds, q.symbol ≠ f)
    (hdef : ∀ q ∈ preds, ∀ d ∈ q.definition, f ∉ d.body.symbols) : (M.without f).Reads J := by
  have hagree := agree_without M f
  have hrel : ∀ {q : Predicate} {es : List (Element U)}, q ∈ preds →
      ((M.without f).Rel q es ↔ M.Rel q es) := fun hq =>
    iff_of_eq (congrFun (hagree.symbol _ (hpred _ hq)) _)
  constructor
  · intro p q es hq hd hes
    -- Interpretations do not depend on constants.
    have hfun : (M.without f).SameFunctions preds M :=
      hagree.mono fun g hg hgf => hg.1 (hgf ▸ hf)
    rw [hrel (List.mem_of_getElem? hq), J.congr _ M hfun]
    exact hM.undefined hq hd hes
  · intro q d es hq hd hes
    rw [hrel hq, hM.defined hq hd hes]
    exact sat_congr ((hagree.mono fun g hg hgf => hdef q hq d hd (hgf ▸ hg)).assign _).symm

end Structure

/-! ### Instances that keep the error apart -/

open RuleSystem

/-- The error is a predicate of the instance, or neither the clauses nor the definitions mention
it. -/
def Instance.ErrorApart (inst : Instance) : Prop :=
  (∃ q ∈ inst.preds, q.symbol = errorRelation) ∨
    ((∀ c ∈ inst.clauses, c.Avoids (· = errorRelation)) ∧
      ∀ q ∈ inst.preds, ∀ d ∈ q.definition, errorRelation ∉ d.body.symbols)

instance (inst : Instance) : Decidable inst.ErrorApart :=
  inferInstanceAs (Decidable ((∃ q ∈ inst.preds, q.symbol = errorRelation) ∨
    ((∀ c ∈ inst.clauses, c.Avoids (· = errorRelation)) ∧
      ∀ q ∈ inst.preds, ∀ d ∈ q.definition, errorRelation ∉ d.body.symbols)))

variable {inst : Instance} {J : Interpretation inst.preds}

theorem not_sat_without (M : Structure U) : ¬(M.without errorRelation).Sat errorHead := by
  have hvalue : (⟨errorRelation.range, (Element.truth False).get errorRelation.range⟩ :
      Element U) = Element.truth False := (Element.eq_get (s := .bool) rfl).symm
  rw [errorHead, Structure.Sat, Structure.eval, Structure.evalList, Structure.symbol_without,
    hvalue, Element.holds_truth]
  exact not_false

/-- **A constant with the name of the error** may be taken to be false. -/
theorem Instance.ErrorApart.satisfies (h : inst.ErrorApart) {c : Clause} (hc : c ∈ inst.clauses)
    (hsat : ∀ (U : Universe) (M : Structure U), M.Reads J →
      ((∃ q ∈ inst.preds, q.symbol = errorRelation) ∨ ¬M.Sat errorHead) →
        M.SatClause inst.preds c) : J.Satisfies c := by
  intro U M hM
  rcases h with hpred | ⟨havoids, hdef⟩
  · exact hsat U M hM (.inl hpred)
  · by_cases hpred : ∃ q ∈ inst.preds, q.symbol = errorRelation
    · exact hsat U M hM (.inl hpred)
    -- Nothing mentions the constant, so the clause is as true where it is false.
    · have hne : ∀ q ∈ inst.preds, q.symbol ≠ errorRelation := fun q hq hqe => hpred ⟨q, hq, hqe⟩
      have hwithout := hsat U _ (hM.without rfl hne hdef) (.inr (not_sat_without M))
      exact (Structure.satClause_congr (Structure.agree_without M errorRelation) hne
        fun t ht f hf => havoids c hc t ht f hf).1 hwithout

/-- The error of an undefined predicate is false where that predicate is. -/
theorem Interpretation.Falsifies.not_sat (hJ : J.Falsifies errorRelation) {M : Structure U}
    (hM : M.Follows J) (h : IsUndefined inst.preds errorRelation) : ¬M.Sat errorHead := by
  obtain ⟨q, hq, hd, hsym⟩ := h
  obtain ⟨p, hp⟩ := List.getElem?_of_mem hq
  have hfit : Fits q.sorts ([] : List (Element U)) := (congrArg Symbol.domain hsym).symm
  rw [errorHead, ← hsym, Structure.sat_application]
  exact fun hrel => hJ _ hp hd hsym hfit ((hM hp hd hfit).1 hrel)

/-- **The structure in which the rules are read.** What reads an interpretation completes a
structure in which the error is false, unless the error is a constant that is true. -/
theorem RuleSystem.exists_completes_excluding (hJ : J.Falsifies errorRelation) {N : Structure U}
    (hN : N.Reads J)
    (h : (∃ q ∈ inst.preds, q.symbol = errorRelation) ∨ ¬N.Sat errorHead) :
    ∃ M : Structure U, N.Completes M J ∧ ¬M.Sat errorHead := by
  by_cases hfalse : N.Sat errorHead
  · obtain ⟨q, hq, hsym⟩ := h.resolve_right (not_not.2 hfalse)
    -- The error is a defined predicate, so that it may be changed.
    have hdefined : ¬IsUndefined inst.preds errorRelation := fun hu =>
      hJ.not_sat hN.completes.follows hu hfalse
    have hagree := Structure.agree_without N errorRelation
    have hfun : (N.without errorRelation).SameFunctions inst.preds N :=
      hagree.mono fun f hf hfe => hf.2 q hq (hsym.trans hfe.symm)
    refine ⟨N.without errorRelation, ⟨fun {p r es} hr hd hes => ?_, hN, ?_⟩, not_sat_without N⟩
    · have hne : r.symbol ≠ errorRelation := fun hre =>
        hdefined ⟨r, List.mem_of_getElem? hr, hd, hre⟩
      rw [J.congr _ N hfun, ← hN.undefined hr hd hes]
      exact iff_of_eq (congrFun (hagree.symbol _ hne) es)
    · exact hagree.symm.mono fun f hf hfe => hf q hq (hsym.trans hfe.symm)
  · exact ⟨N, hN.completes, hfalse⟩

end Horn
