import Horn.Proofs.Semantics.Interpretation

/-!
# Comparing interpretations on clauses

A structure that reads a smaller interpretation can be changed to read a greater one
(`Structure.reads_obeying`); then more bodies are true (`Structure.body_obeying`). Hence

* a negative clause that the greater interpretation satisfies is satisfied by the smaller one
  (`Interpretation.satisfies_of_le`);
* an intersection of interpretations satisfies the clauses that all of them satisfy
  (`Interpretation.inf_satisfies`).

Both need clauses whose side conditions and arguments do not mention undefined predicates
(`Clause.Avoids`): such a mention may stand under a negation, and then a smaller interpretation
makes more bodies true.

Clauses are compared by content, since a sub-instance numbers its clauses anew
(`Clause.SameContent`).
-/

namespace Horn

variable {preds : List Predicate}

namespace Clause

/-- The side conditions and all arguments of a clause. -/
def parts (c : Clause) : List Term :=
  c.terms ++ c.apps.flatMap (·.2) ++ c.conclusion.toList.flatMap (·.2)

/-- No side condition and no argument applies one of the symbols. -/
def Avoids (c : Clause) (F : Symbol → Prop) : Prop := ∀ t ∈ c.parts, ∀ f ∈ t.symbols, ¬F f

instance (c : Clause) (F : Symbol → Prop) [DecidablePred F] : Decidable (c.Avoids F) :=
  inferInstanceAs (Decidable (∀ t ∈ c.parts, ∀ f ∈ t.symbols, ¬F f))

/-- Two clauses say the same: they have the same side conditions and the same conclusion, and on
the left the same applications. -/
structure SameContent (c d : Clause) : Prop where
  terms : c.terms = d.terms
  apps : ∀ a, a ∈ c.apps ↔ a ∈ d.apps
  conclusion : c.conclusion = d.conclusion

theorem SameContent.refl (c : Clause) : c.SameContent c := ⟨rfl, fun _ => Iff.rfl, rfl⟩

theorem SameContent.symm {c d : Clause} (h : c.SameContent d) : d.SameContent c :=
  ⟨h.terms.symm, fun a => (h.apps a).symm, h.conclusion.symm⟩

theorem mem_parts_of_term {c : Clause} {t : Term} (h : t ∈ c.terms) : t ∈ c.parts :=
  List.mem_append_left _ (List.mem_append_left _ h)

theorem mem_parts_of_app {c : Clause} {a : Nat × List Term} {t : Term} (ha : a ∈ c.apps)
    (h : t ∈ a.2) : t ∈ c.parts :=
  List.mem_append_left _ (List.mem_append_right _ (List.mem_flatMap.2 ⟨a, ha, h⟩))

theorem mem_parts_of_conclusion {c : Clause} {a : Nat × List Term} {t : Term}
    (ha : a ∈ c.conclusion) (h : t ∈ a.2) : t ∈ c.parts :=
  List.mem_append_right _ (List.mem_flatMap.2 ⟨a, Option.mem_toList.2 ha, h⟩)

end Clause

/-- Clauses with the same content are true in the same structures. -/
theorem Clause.SameContent.satClause {U : Universe} {M : Structure U} {c d : Clause}
    (h : c.SameContent d) (hc : M.SatClause preds c) : M.SatClause preds d := by
  intro hbody
  rw [← h.conclusion]
  exact hc ⟨fun t ht => hbody.terms t (h.terms ▸ ht), fun a ha => hbody.apps a ((h.apps a).1 ha)⟩

/-- Clauses with the same content are satisfied by the same interpretations. -/
theorem Clause.SameContent.satisfies {J : Interpretation preds} {c d : Clause}
    (h : c.SameContent d) (hc : J.Satisfies c) : J.Satisfies d :=
  fun U M hM => h.satClause (hc U M hM)

/-- A table of clauses that contains the content of another one is harder to satisfy. -/
theorem Satisfiable.mono {cs ds : List Clause} (h : ∀ d ∈ ds, ∃ c ∈ cs, c.SameContent d)
    (hcs : Satisfiable preds cs) : Satisfiable preds ds := by
  obtain ⟨J, hJ⟩ := hcs
  refine ⟨J, fun d hd => ?_⟩
  obtain ⟨c, hc, hcd⟩ := h d hd
  exact hcd.satisfies (hJ c hc)

/-- So do the models of fragments. -/
theorem Models.mono {cs ds : List Clause} {fragments : Nat → List Term}
    (h : ∀ d ∈ ds, ∃ c ∈ cs, c.SameContent d) (hcs : Models preds cs fragments) :
    Models preds ds fragments := by
  obtain ⟨J, hJ, hsat⟩ := hcs
  refine ⟨J, hJ, fun d hd => ?_⟩
  obtain ⟨c, hc, hcd⟩ := h d hd
  exact hcd.satisfies (hsat c hc)

/-- Each entry of one of two lists that correspond has a counterpart in the other. -/
theorem exists_of_forall₂ {α β : Type} {R : α → β → Prop} {as : List α} {bs : List β}
    (h : List.Forall₂ R as bs) : (∀ a ∈ as, ∃ b ∈ bs, R a b) ∧ ∀ b ∈ bs, ∃ a ∈ as, R a b := by
  induction h with
  | nil => simp
  | cons hab _ ih =>
    simp only [List.forall_mem_cons, List.exists_mem_cons_iff]
    exact ⟨⟨.inl hab, fun a ha => .inr (ih.1 a ha)⟩, .inl hab, fun b hb => .inr (ih.2 b hb)⟩

/-- Tables with the same contents are equally satisfiable. -/
theorem satisfiable_iff_of_sameContent {cs ds : List Clause}
    (h : List.Forall₂ Clause.SameContent cs ds) : Satisfiable preds ds ↔ Satisfiable preds cs := by
  obtain ⟨hl, hr⟩ := exists_of_forall₂ h
  constructor
  · refine Satisfiable.mono fun c hc => ?_
    obtain ⟨d, hd, hcd⟩ := hl c hc
    exact ⟨d, hd, hcd.symm⟩
  · refine Satisfiable.mono fun d hd => ?_
    obtain ⟨c, hc, hcd⟩ := hr d hd
    exact ⟨c, hc, hcd⟩

namespace Structure

variable {U : Universe} {M : Structure U} {J K : Interpretation preds}

/-- A structure that reads one interpretation can be made to read any other: definitions do not
mention the predicates that are changed. -/
theorem reads_obeying (hn : DistinctNames preds) (hd : ClosedDefinitions preds) (hM : M.Reads J)
    (K : Interpretation preds) : (M.obeying K).Reads K := by
  constructor
  case undefined =>
    intro p q es hp hq hes
    rw [rel_obeying hn M K hp hq es, ← K.congr M _ (sameFunctions_obeying M K)]
    simp [hes]
  case defined =>
    intro q d es hq hqd hes
    -- A defined predicate keeps its relation, and so does its definition.
    have hsym : (M.obeying K).symbol q.symbol = M.symbol q.symbol :=
      (agree_obeying M K).symbol _ (hn.not_isUndefined hq hqd)
    have hbody : ((M.obeying K).assign (d.params.zip es)).Sat d.body ↔
        (M.assign (d.params.zip es)).Sat d.body :=
      sat_congr (((agree_obeying M K).mono (hd q hq d hqd)).assign _)
    unfold Rel
    rw [hsym, hbody]
    exact hM.defined hq hqd hes

/-- A part of a clause that does not mention undefined predicates keeps its value. -/
theorem eval_obeying {t : Term} (ht : ∀ f ∈ t.symbols, ¬IsUndefined preds f) :
    (M.obeying K).eval [] t = M.eval [] t :=
  eval_congr t [] ((agree_obeying M K).mono ht)

/-- So do the arguments of an application at the sorts of its signature. -/
theorem args_obeying {sorts : List TermSort} {as args : List Term}
    (has : ∀ t ∈ as, ∀ f ∈ t.symbols, ¬IsUndefined preds f)
    (h : Term.castAll? sorts as = some args) :
    args.map ((M.obeying K).eval []) = args.map (M.eval []) := by
  refine List.map_congr_left fun t ht => eval_obeying fun f hf => ?_
  -- Casting adds no symbols, so the symbol comes from one of the given arguments.
  have hf' : f ∈ as.flatMap Term.symbols := by
    rw [← (Term.castAll?_spec h).2.1]
    exact List.mem_flatMap.2 ⟨t, ht, hf⟩
  obtain ⟨u, hu, hfu⟩ := List.mem_flatMap.1 hf'
  exact has u hu f hfu

/-- Defined predicates are not changed. -/
theorem rel_obeying_of_defined (hn : DistinctNames preds) {q : Predicate} {d : Definition}
    (hq : q ∈ preds) (hqd : q.definition = some d) (es : List (Element U)) :
    (M.obeying K).Rel q es ↔ M.Rel q es := by
  have hsym : (M.obeying K).symbol q.symbol = M.symbol q.symbol :=
    (agree_obeying M K).symbol _ (hn.not_isUndefined hq hqd)
  exact iff_of_eq (congrFun hsym es)

/-- So an application of a defined predicate is as true as before. -/
theorem applies_obeying_of_defined (hn : DistinctNames preds) {a : Nat × List Term} {q : Predicate}
    {d : Definition} (hq : preds[a.1]? = some q) (hqd : q.definition = some d)
    (ha : ∀ t ∈ a.2, ∀ f ∈ t.symbols, ¬IsUndefined preds f)
    (h : (M.obeying K).Applies preds a) : M.Applies preds a := by
  obtain ⟨q', args, hq', hargs, hrel⟩ := ((M.obeying K).applies_iff preds a).1 h
  obtain rfl := Option.some.inj (hq.symm.trans hq')
  rw [args_obeying ha hargs, rel_obeying_of_defined hn (List.mem_of_getElem? hq) hqd] at hrel
  exact (M.applies_iff preds a).2 ⟨q, args, hq, hargs, hrel⟩

/-- What holds in a structure that reads a smaller interpretation still holds when the structure is
made to read a greater one. -/
theorem applies_obeying (hn : DistinctNames preds) (hM : M.Reads J) (hle : J.Le K)
    {a : Nat × List Term} (ha : ∀ t ∈ a.2, ∀ f ∈ t.symbols, ¬IsUndefined preds f)
    (h : M.Applies preds a) : (M.obeying K).Applies preds a := by
  rw [applies_iff] at h ⊢
  obtain ⟨q, args, hq, hargs, hrel⟩ := h
  refine ⟨q, args, hq, hargs, ?_⟩
  rw [args_obeying ha hargs]
  cases hqd : q.definition with
  -- An undefined predicate: only on arguments that fit can something change.
  | none =>
    rw [rel_obeying hn M K hq hqd]
    by_cases hfit : Fits q.sorts (args.map (M.eval []))
    · exact .inl ⟨hfit, hle M hq hqd hfit ((hM.undefined hq hqd hfit).1 hrel)⟩
    · exact .inr ⟨hfit, hrel⟩
  | some d => exact (rel_obeying_of_defined hn (List.mem_of_getElem? hq) hqd _).2 hrel

/-- The conditions of a clause that hold in a structure that reads a smaller interpretation still
hold when the structure is made to read a greater one. -/
theorem body_obeying (hn : DistinctNames preds) (hM : M.Reads J) (hle : J.Le K) {c : Clause}
    (hc : c.Avoids (IsUndefined preds)) (h : M.Body preds c) : (M.obeying K).Body preds c := by
  constructor
  · intro t ht
    unfold Sat
    rw [eval_obeying (hc t (Clause.mem_parts_of_term ht))]
    exact h.terms t ht
  · intro a ha
    exact applies_obeying hn hM hle (fun t ht => hc t (Clause.mem_parts_of_app ha ht)) (h.apps a ha)

end Structure

namespace Interpretation

/-- **Strengthening.** A negative clause that an interpretation satisfies is satisfied by every
smaller one. -/
theorem satisfies_of_le {J K : Interpretation preds} (hn : DistinctNames preds)
    (hd : ClosedDefinitions preds) (hle : J.Le K) {c : Clause} (hneg : c.conclusion = none)
    (hc : c.Avoids (IsUndefined preds)) (h : K.Satisfies c) : J.Satisfies c := by
  intro U M hM hbody
  -- The conditions would hold for the greater interpretation, too.
  obtain ⟨a, ha, -⟩ := h U (M.obeying K) (Structure.reads_obeying hn hd hM K)
    (Structure.body_obeying hn hM hle hc hbody)
  rw [hneg] at ha
  cases ha

/-- A conclusion that holds for all interpretations of a family holds for their intersection. -/
theorem conclusion_of_obeying {ι : Type} [Nonempty ι] {J : ι → Interpretation preds}
    (hn : DistinctNames preds) {U : Universe} {M : Structure U} (hM : M.Reads (inf J)) {c : Clause}
    (hc : c.Avoids (IsUndefined preds))
    (h : ∀ i, ∃ a ∈ c.conclusion, (M.obeying (J i)).Applies preds a) :
    ∃ a ∈ c.conclusion, M.Applies preds a := by
  obtain ⟨a, ha, happ⟩ := h (Classical.arbitrary ι)
  obtain ⟨q, args, hq, hargs, -⟩ := (Structure.applies_iff _ preds a).1 happ
  -- All members of the family agree on which application is concluded.
  have hrel : ∀ i, (M.obeying (J i)).Rel q (args.map (M.eval [])) := by
    intro i
    obtain ⟨a', ha', happ'⟩ := h i
    obtain ⟨q', args', hq', hargs', hrel⟩ := (Structure.applies_iff _ preds a').1 happ'
    rw [Option.mem_def] at ha ha'
    obtain rfl : a = a' := Option.some.inj (ha.symm.trans ha')
    obtain rfl : q = q' := Option.some.inj (hq.symm.trans hq')
    obtain rfl : args = args' := Option.some.inj (hargs.symm.trans hargs')
    rwa [Structure.args_obeying
      (fun t ht => hc t (Clause.mem_parts_of_conclusion ha ht)) hargs] at hrel
  refine ⟨a, ha, (Structure.applies_iff _ preds a).2 ⟨q, args, hq, hargs, ?_⟩⟩
  cases hqd : q.definition with
  | none =>
    by_cases hfit : Fits q.sorts (args.map (M.eval []))
    · -- All members of the family accept the arguments, so their intersection does.
      refine (hM.undefined hq hqd hfit).2 fun i => ?_
      rcases (Structure.rel_obeying hn M (J i) hq hqd _).1 (hrel i) with ⟨-, hi⟩ | ⟨hi, -⟩
      · exact hi
      · exact absurd hfit hi
    · rcases (Structure.rel_obeying hn M _ hq hqd _).1 (hrel (Classical.arbitrary ι)) with
        ⟨hi, -⟩ | ⟨-, hi⟩
      · exact absurd hi hfit
      · exact hi
  -- A defined predicate has the same relation in all these structures.
  | some d =>
    exact (Structure.rel_obeying_of_defined hn (List.mem_of_getElem? hq) hqd _).1
      (hrel (Classical.arbitrary ι))

/-- **Intersection.** The clauses with a conclusion that all interpretations of a family satisfy are
satisfied by their intersection. -/
theorem inf_satisfies {ι : Type} [Nonempty ι] {J : ι → Interpretation preds}
    (hn : DistinctNames preds) (hd : ClosedDefinitions preds) {c : Clause}
    (hc : c.Avoids (IsUndefined preds)) (h : ∀ i, (J i).Satisfies c) : (inf J).Satisfies c := by
  intro U M hM hbody
  have hle : ∀ i, (inf J).Le (J i) := fun i _ _ _ _ _ _ _ _ hrel => hrel i
  -- The conclusion holds in the structures that read the members of the family.
  exact conclusion_of_obeying hn hM hc fun i =>
    h i U _ (Structure.reads_obeying hn hd hM (J i)) (Structure.body_obeying hn hM (hle i) hc hbody)

end Interpretation
end Horn
