import Horn.Proofs.Semantics.Substitution

/-!
# Substitution and evaluation

Evaluation commutes with the three substitutions on terms:

* lifting a term past further variables does not change what it denotes (`Structure.eval_lift`);
* filling in terms for bound variables is evaluating with the elements of these terms in the
  environment (`Structure.eval_instantiateAt`);
* replacing constants is evaluating in the structure in which the constants have the elements of
  what replaces them (`Structure.eval_substitute`).

None of this asks for well-sorted terms: the operations and evaluation go through a term in the same
way. Only what replaces a constant has to be of its sort, since the value of a constant is.

Under binders the environment is split into the variables bound inside the term that is changed, of
which there are as many as the depth says, and the variables around it. The inductions go over terms
for all ways to split.
-/

namespace Horn

variable {U : Universe}

namespace Structure

/-- Quantified formulas agree if their bodies do, whatever is put in for the bound variables. -/
theorem eval_quant_congr {M N : Structure U} {env env' : List (Element U)} {xs : List Constant}
    {b b' : Term} (q : Quantifier)
    (h : ∀ vs : List (Element U), vs.length = xs.length →
      M.eval (vs ++ env) b = N.eval (vs ++ env') b') :
    M.eval env (.quant q xs b) = N.eval env' (.quant q xs b') := by
  have hvs : ∀ vs : List (Element U), vs.map (·.sort) = xs.reverse.map (·.sort) →
      ((M.eval (vs ++ env) b).Holds ↔ (N.eval (vs ++ env') b').Holds) := by
    intro vs hs
    -- Values of the sorts of the binders are as many as the binders.
    have hlen := congrArg List.length hs
    rw [List.length_map, List.length_map, List.length_reverse] at hlen
    rw [h vs hlen]
  cases q with
  | all =>
    rw [eval, eval]
    exact congrArg Element.truth (propext (forall_congr' fun vs => imp_congr_right (hvs vs)))
  | some =>
    rw [eval, eval]
    exact congrArg Element.truth (propext (exists_congr fun vs => and_congr_right (hvs vs)))

/-! ### Lifting -/

mutual

/-- **Lifting.** A term that has been moved past further variables denotes what it denoted. -/
theorem eval_lift (M : Structure U) (mid outer : List (Element U)) :
    ∀ (t : Term) (inner : List (Element U)),
      M.eval (inner ++ (mid ++ outer)) (t.lift mid.length inner.length) = M.eval (inner ++ outer) t
  | .lit _, _ => rfl
  | .bound i s, inner => by
    rw [Term.lift]
    split
    · next hi => rw [eval, eval, List.getElem?_append_left hi, List.getElem?_append_left hi]
    · next hi =>
      -- The variable is bound outside, and `mid` has come in between.
      have hsub : i + mid.length - inner.length = mid.length + (i - inner.length) := by omega
      rw [eval, eval, List.getElem?_append_right (by omega), List.getElem?_append_right (by omega),
        hsub, List.getElem?_append_right (by omega), Nat.add_sub_cancel_left]
  | .fn f as, inner => by
    rw [Term.lift, eval, eval, evalList_lift M mid outer as inner]
  | .op f as, inner => by
    rw [Term.lift, eval, eval, evalList_lift M mid outer as inner]
  | .quant q xs b, inner => by
    rw [Term.lift]
    refine eval_quant_congr q fun vs hvs => ?_
    have hb := eval_lift M mid outer b (vs ++ inner)
    rw [List.length_append, hvs, Nat.add_comm] at hb
    rw [← List.append_assoc, hb, List.append_assoc]

theorem evalList_lift (M : Structure U) (mid outer : List (Element U)) :
    ∀ (as : List Term) (inner : List (Element U)),
      M.evalList (inner ++ (mid ++ outer)) (Term.liftList mid.length inner.length as) =
        M.evalList (inner ++ outer) as
  | [], _ => rfl
  | a :: as, inner => by
    rw [Term.liftList, evalList, evalList, eval_lift M mid outer a inner,
      evalList_lift M mid outer as inner]

end

/-- Lifting past the innermost variables. -/
theorem eval_lift_zero (M : Structure U) (mid outer : List (Element U)) (t : Term) :
    M.eval (mid ++ outer) (t.lift mid.length 0) = M.eval outer t :=
  eval_lift M mid outer t []

/-! ### Filling in bound variables -/

mutual

/-- **Instantiation.** Terms that are filled in for bound variables count as the elements that they
denote outside. -/
theorem eval_instantiateAt (M : Structure U) (ts : List Term) (env : List (Element U)) :
    ∀ (t : Term) (es : List (Element U)),
      M.eval (es ++ env) (t.instantiateAt ts es.length) =
        M.eval (es ++ (ts.map (M.eval env) ++ env)) t
  | .lit _, _ => rfl
  | .bound i s, es => by
    rw [Term.instantiateAt]
    split
    · next hi => rw [eval, eval, List.getElem?_append_left hi, List.getElem?_append_left hi]
    · next hi =>
      rw [eval, List.getElem?_append_right (Nat.le_of_not_lt hi)]
      cases ht : ts[i - es.length]? with
      | some t =>
        have hlt : i - es.length < (ts.map (M.eval env)).length := by
          rw [List.length_map]
          exact (List.getElem?_eq_some_iff.1 ht).1
        rw [List.getElem?_append_left hlt, List.getElem?_map, ht]
        exact eval_lift_zero M es env t
      | none =>
        -- A variable of the environment, which has come nearer.
        have hge := List.getElem?_eq_none_iff.1 ht
        have hsub : i - ts.length - es.length = i - es.length - ts.length := by omega
        rw [List.getElem?_append_right (by rwa [List.length_map]), List.length_map]
        change M.eval (es ++ env) (.bound (i - ts.length) s) = _
        rw [eval, List.getElem?_append_right (by omega), hsub]
  | .fn f as, es => by
    rw [Term.instantiateAt, eval, eval, evalList_instantiateAt M ts env as es]
  | .op f as, es => by
    rw [Term.instantiateAt, eval, eval, evalList_instantiateAt M ts env as es]
  | .quant q xs b, es => by
    rw [Term.instantiateAt]
    refine eval_quant_congr q fun vs hvs => ?_
    have hb := eval_instantiateAt M ts env b (vs ++ es)
    rw [List.length_append, hvs, Nat.add_comm] at hb
    rw [← List.append_assoc, hb, List.append_assoc]

theorem evalList_instantiateAt (M : Structure U) (ts : List Term) (env : List (Element U)) :
    ∀ (as : List Term) (es : List (Element U)),
      M.evalList (es ++ env) (Term.instantiateAtList ts es.length as) =
        M.evalList (es ++ (ts.map (M.eval env) ++ env)) as
  | [], _ => rfl
  | a :: as, es => by
    rw [Term.instantiateAtList, evalList, evalList, eval_instantiateAt M ts env a es,
      evalList_instantiateAt M ts env as es]

end

/-! ### Replacing constants -/

/-- The structure in which constants have the elements that terms denote. -/
noncomputable def assignTerms (M : Structure U) (env : List (Element U))
    (σ : List (Constant × Term)) : Structure U :=
  M.assign (σ.map fun e => (e.1, M.eval env e.2))

/-- Assigning goes by symbols and substitution by constants, but they find the same term. -/
theorem find?_assignTerms (M : Structure U) (env : List (Element U)) (σ : List (Constant × Term))
    (x : Constant) :
    ((σ.map fun e => (e.1, M.eval env e.2)).reverse.find? (·.1.symbol == x.symbol)).map (·.2) =
      (Term.lookupLast σ x).map (M.eval env) := by
  have hkey : ∀ e : Constant × Term, (e.1.symbol == x.symbol) = (e.1 == x) := fun e => by
    rw [Bool.eq_iff_iff, beq_iff_eq, beq_iff_eq]
    exact Constant.symbol_injective.eq_iff
  rw [← List.map_reverse, List.find?_map, Option.map_map, Term.lookupLast, Option.map_map]
  simp only [Function.comp_def, hkey]

/-- A symbol that is no constant with a term keeps its meaning. -/
theorem symbol_assignTerms_of_none (M : Structure U) (env : List (Element U))
    {σ : List (Constant × Term)} {f : Symbol} {as : List (Element U)}
    (h : ∀ x, f = x.symbol → as = [] → Term.lookupLast σ x = none) :
    (M.assignTerms env σ).symbol f as = M.symbol f as := by
  unfold assignTerms assign
  cases as with
  | cons a as => rfl
  | nil =>
    cases hfind : (σ.map fun e => (e.1, M.eval env e.2)).reverse.find? (·.1.symbol == f) with
    -- Nothing stands in for the symbol.
    | none => simp only [hfind]
    | some p =>
      -- What stands in for the symbol would be the value of a constant that has a term.
      have hp := List.find?_some hfind
      rw [beq_iff_eq] at hp
      have heq := find?_assignTerms M env σ p.1
      rw [hp, hfind, h p.1 hp.symm rfl] at heq
      cases heq

/-- A constant with a term denotes what the term denotes. -/
theorem eval_assignTerms_const (M : Structure U) {env : List (Element U)}
    {σ : List (Constant × Term)} {x : Constant} {a : Term} (h : Term.lookupLast σ x = some a)
    (hs : (M.eval env a).sort = x.sort) (env' : List (Element U)) :
    (M.assignTerms env σ).eval env' (.const x) = M.eval env a := by
  have hfind := find?_assignTerms M env σ x
  rw [h] at hfind
  obtain ⟨p, hp, hpa⟩ := Option.map_eq_some_iff.1 hfind
  -- The value that stands in for the constant is the one of the term that wins.
  have hsymbol : (M.assignTerms env σ).symbol x.symbol [] = (M.eval env a).get x.sort := by
    unfold assignTerms assign
    simp only [hp]
    rw [hpa]
    rfl
  rw [Term.const, eval, evalList, hsymbol]
  generalize M.eval env a = e at hs
  obtain ⟨s, v⟩ := e
  obtain rfl : s = x.sort := hs
  exact congrArg (Element.mk x.sort) (Element.get_mk v)

mutual

/-- Replacing constants under binders. -/
theorem eval_replace (M : Structure U) {env : List (Element U)} {σ : List (Constant × Term)}
    (hσ : ∀ e ∈ σ, (M.eval env e.2).sort = e.1.sort) :
    ∀ (t : Term) (es : List (Element U)),
      M.eval (es ++ env) (t.replace (Term.lookupLast σ) es.length) =
        (M.assignTerms env σ).eval (es ++ env) t
  | .lit _, _ => rfl
  | .bound _ _, _ => rfl
  | .fn f as, es => by
    rcases Term.replace_fn (Term.lookupLast σ) es.length f as with
      ⟨x, a, rfl, rfl, ha, heq⟩ | ⟨hnone, heq⟩
    · -- The value is lifted past the binders, and denotes what it denotes outside.
      have hs := hσ (x, a) (Term.mem_of_lookupLast ha)
      rw [heq, eval_lift_zero]
      exact (eval_assignTerms_const M ha hs _).symm
    · rw [heq, eval, eval, evalList_replaceList M hσ as es, symbol_assignTerms_of_none]
      intro x hf has
      rw [evalList_eq_map, List.map_eq_nil_iff] at has
      exact hnone x hf has
  | .op f as, es => by
    rw [Term.replace, eval, eval, evalList_replaceList M hσ as es]
    exact congrFun (denote_congr rfl f) _
  | .quant q xs b, es => by
    rw [Term.replace]
    refine eval_quant_congr q fun vs hvs => ?_
    have hb := eval_replace M hσ b (vs ++ es)
    rw [List.length_append, hvs, Nat.add_comm] at hb
    rw [← List.append_assoc, hb]

theorem evalList_replaceList (M : Structure U) {env : List (Element U)}
    {σ : List (Constant × Term)} (hσ : ∀ e ∈ σ, (M.eval env e.2).sort = e.1.sort) :
    ∀ (as : List Term) (es : List (Element U)),
      M.evalList (es ++ env) (Term.replaceList (Term.lookupLast σ) es.length as) =
        (M.assignTerms env σ).evalList (es ++ env) as
  | [], _ => rfl
  | a :: as, es => by
    rw [Term.replaceList, evalList, evalList, eval_replace M hσ a es,
      evalList_replaceList M hσ as es]

end

/-- **Substitution.** Putting terms in for constants is giving the constants their elements. -/
theorem eval_substitute (M : Structure U) {env : List (Element U)} {σ : List (Constant × Term)}
    (hσ : ∀ e ∈ σ, (M.eval env e.2).sort = e.1.sort) (t : Term) :
    M.eval env (t.substitute σ) = (M.assignTerms env σ).eval env t :=
  eval_replace M hσ t []

/-- Closed terms denote the same everywhere. -/
theorem eval_of_closed (M : Structure U) {t : Term} (h : t.isWellSorted [] = true)
    (env : List (Element U)) : M.eval env t = M.eval [] t := by
  have hlift := M.eval_lift_zero env [] t
  have hself : t.lift env.length 0 = t := Term.lift_eq_self _ t [] h
  rwa [hself, List.append_nil] at hlift

/-- Terms in place of parameters count as their elements. -/
theorem eval_substitute_zip_env (M : Structure U) (env : List (Element U)) {xs : List Constant}
    {as : List Term} (hs : as.map Term.sort = xs.map (·.sort))
    (hw : ∀ a ∈ as, a.isWellSorted (env.map (·.sort)) = true) (t : Term) :
    M.eval env (t.substitute (xs.zip as)) =
      (M.assign (xs.zip (as.map (M.eval env)))).eval env t := by
  have hσ : ∀ e ∈ xs.zip as, (M.eval env e.2).sort = e.1.sort := fun e he =>
    (M.sort_eval e.2 env (hw _ (List.of_mem_zip he).2)).trans (Term.sort_of_mem_zip hs e he)
  rw [eval_substitute M hσ, assignTerms, List.zip_map_right]
  rfl

/-- Closed terms in place of parameters count as their elements. -/
theorem eval_substitute_zip (M : Structure U) {xs : List Constant} {as : List Term}
    (hs : as.map Term.sort = xs.map (·.sort)) (hw : ∀ a ∈ as, a.isWellSorted [] = true) (t : Term) :
    M.eval [] (t.substitute (xs.zip as)) =
      (M.assign (xs.zip (as.map (M.eval [])))).eval [] t :=
  M.eval_substitute_zip_env [] hs hw t

end Structure
end Horn
