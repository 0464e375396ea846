import Horn.Proofs.Semantics.SubstitutionLemma
import Horn.Smt.Problem

/-!
# Opening the universal quantifiers

A clause has constants where its assertion has variables bound by quantifiers. That keeps the
meaning if no occurrence is captured (`CaptureFree`): the body must not mention a free constant that
some binder has the name and the sort of, and it must not refer to a binder behind another one that
looks the same. The text of an assertion can do both, since a local name can stand for a constant or
a variable that is not visible any more.

* `holds_prenex`: a formula holds if its matrix does, whatever the variables of its prefix are.
* `sat_iff_matrix`: without capture it is true if its opened matrix is, whatever the values of the
  constants are. Of two values for a constant the later one counts, as the inner binder does.
-/

namespace Horn

variable {U : Universe}

/-! ### References to bound variables -/

namespace Term

mutual

/-- Whether a term refers to the variable that is bound `k` binders outside of it. -/
def refers (k : Nat) : Term → Bool
  | .lit _ => false
  | .bound i _ => i == k
  | .fn _ as => refersList k as
  | .op _ as => refersList k as
  | .quant _ xs b => refers (k + xs.length) b

/-- Whether a term of a list does. -/
def refersList (k : Nat) : List Term → Bool
  | [] => false
  | a :: as => refers k a || refersList k as

end

end Term

namespace Structure

mutual

/-- A term only depends on the variables that it refers to. -/
theorem eval_refers (M : Structure U) : ∀ (t : Term) {env env' : List (Element U)},
    (∀ k, t.refers k = true → env[k]? = env'[k]?) → M.eval env t = M.eval env' t
  | .lit _, _, _, _ => rfl
  | .bound i s, _, _, h => by
    rw [eval, eval, h i (by rw [Term.refers, beq_self_eq_true])]
  | .fn f as, _, _, h => by
    rw [eval, eval, evalList_refers M as fun k hk => h k (by rwa [Term.refers])]
  | .op f as, _, _, h => by
    rw [eval, eval, evalList_refers M as fun k hk => h k (by rwa [Term.refers])]
  | .quant q xs b, env, env', h => by
    refine eval_quant_congr q fun vs hvs => eval_refers M b fun k hk => ?_
    by_cases hlt : k < vs.length
    · rw [List.getElem?_append_left hlt, List.getElem?_append_left hlt]
    · -- A variable that is bound outside of the quantifier.
      rw [List.getElem?_append_right (by omega), List.getElem?_append_right (by omega)]
      refine h (k - vs.length) ?_
      rwa [Term.refers, ← hvs, Nat.sub_add_cancel (by omega)]

theorem evalList_refers (M : Structure U) : ∀ (as : List Term) {env env' : List (Element U)},
    (∀ k, Term.refersList k as = true → env[k]? = env'[k]?) →
      M.evalList env as = M.evalList env' as
  | [], _, _, _ => rfl
  | a :: as, _, _, h => by
    have ha := eval_refers M a fun k hk => h k (by rw [Term.refersList, hk, Bool.true_or])
    have has := evalList_refers M as fun k hk => h k (by rw [Term.refersList, hk, Bool.or_true])
    rw [evalList, evalList, ha, has]

end

/-! ### Values of constants -/

/-- Constants without a value keep their meaning, and so does every function. -/
theorem agree_assign (M : Structure U) (σ : List (Constant × Element U)) :
    Agree (fun f => ∀ e ∈ σ, e.1.symbol ≠ f) (M.assign σ) M := by
  refine ⟨fun f hf => ?_, rfl⟩
  have hnone : σ.reverse.find? (·.1.symbol == f) = none := by
    rw [List.find?_eq_none]
    intro e he
    rw [beq_iff_eq]
    exact hf e (List.mem_reverse.1 he)
  funext as
  cases as <;> simp only [assign, hnone]

/-- A constant has the last one of the values that a list of constants gives to it. -/
theorem eval_assign_zip (M : Structure U) {xs : List Constant} {vs : List (Element U)}
    (hlen : vs.length = xs.length) {k : Nat} {x : Constant} {v : Element U}
    (hx : xs.reverse[k]? = some x) (hv : vs.reverse[k]? = some v) (hs : v.sort = x.sort)
    (hfirst : ∀ i < k, xs.reverse[i]? ≠ some x) (env : List (Element U)) :
    (M.assign (xs.zip vs)).eval env (.const x) = v := by
  have hrev : (xs.zip vs).reverse = xs.reverse.zip vs.reverse :=
    List.reverse_zipWith hlen.symm
  have hk : (xs.zip vs).reverse[k]? = some (x, v) := by
    rw [hrev, List.getElem?_zip_eq_some]
    exact ⟨hx, hv⟩
  have hfind : (xs.zip vs).reverse.find? (·.1.symbol == x.symbol) = some (x, v) := by
    obtain ⟨hlt, hget⟩ := List.getElem?_eq_some_iff.1 hk
    rw [List.find?_eq_some_iff_getElem]
    refine ⟨beq_self_eq_true _, k, hlt, hget, fun j hj => ?_⟩
    -- A pair in front of it is for another constant.
    have hjlt : j < (xs.zip vs).reverse.length := hj.trans hlt
    have hjx : xs.reverse[j]? = some (xs.zip vs).reverse[j].1 := by
      have hget? := List.getElem?_eq_getElem hjlt
      simp only [hrev] at hget? ⊢
      rw [List.getElem?_zip_eq_some] at hget?
      exact hget?.1
    rw [Bool.not_eq_true', beq_eq_false_iff_ne]
    intro hsym
    refine hfirst j hj ?_
    rw [hjx, Constant.symbol_injective hsym]
  have hsymbol : (M.assign (xs.zip vs)).symbol x.symbol [] = v.get x.sort := by
    unfold assign
    simp only [hfind]
    rfl
  rw [Term.const, eval, evalList, hsymbol]
  obtain ⟨s, a⟩ := v
  obtain rfl : s = x.sort := hs
  exact congrArg (Element.mk x.sort) (Element.get_mk a)

end Structure

namespace Problem

/-! ### The prefix -/

/-- **The prefix.** A formula holds if what follows its universal quantifiers holds for all values
of their variables, in the order in which they are bound. -/
theorem holds_prenex (M : Structure U) (t : Term) (env : List (Element U)) :
    (M.eval env t).Holds ↔ ∀ vs : List (Element U),
      vs.map (·.sort) = (prenex t).1.map (·.sort) →
        (M.eval (vs.reverse ++ env) (prenex t).2).Holds := by
  fun_induction prenex t generalizing env with
  | case1 xs body ys matrix heq ih =>
    rw [Structure.eval, Element.holds_truth]
    dsimp only
    constructor
    · intro h vs hvs
      -- The values of the outer quantifier come first.
      rw [List.map_append] at hvs
      obtain ⟨vs₁, vs₂, rfl, hvs₁, hvs₂⟩ := List.map_eq_append_iff.1 hvs
      have houter := h vs₁.reverse (by rw [List.map_reverse, List.map_reverse, hvs₁])
      rw [ih, heq] at houter
      rw [List.reverse_append, List.append_assoc]
      exact houter vs₂ hvs₂
    · intro h es hes
      rw [ih, heq]
      intro vs hvs
      have hall := h (es.reverse ++ vs) (by
        rw [List.map_append, List.map_append, List.map_reverse, hes, hvs, ← List.map_reverse,
          List.reverse_reverse])
      rwa [List.reverse_append, List.reverse_reverse, List.append_assoc] at hall
  | case2 t _ =>
    constructor
    · intro h vs hvs
      rw [List.map_nil, List.map_eq_nil_iff] at hvs
      rwa [hvs]
    · exact fun h => h [] rfl

/-! ### Capture -/

/-- No occurrence in the matrix of a formula is captured when constants are put in for the
variables of the prefix. -/
structure CaptureFree (t : Term) : Prop where
  /-- No free constant is one of the binders. -/
  free : ∀ x ∈ (prenex t).1, x.symbol ∉ (prenex t).2.symbols
  /-- No binder that is referred to stands in front of one that looks the same. -/
  outer : ∀ j < (prenex t).1.length, (prenex t).2.refers j = true →
    ∀ i < j, (prenex t).1.reverse[i]? ≠ (prenex t).1.reverse[j]?

instance (t : Term) : Decidable (CaptureFree t) :=
  decidable_of_iff ((∀ x ∈ (prenex t).1, x.symbol ∉ (prenex t).2.symbols) ∧
      ∀ j < (prenex t).1.length, (prenex t).2.refers j = true →
        ∀ i < j, (prenex t).1.reverse[i]? ≠ (prenex t).1.reverse[j]?)
    ⟨fun h => ⟨h.1, h.2⟩, fun h => ⟨h.1, h.2⟩⟩

/-- **Opening.** Where nothing is captured, giving values to constants is giving them to the
variables for which the constants stand. -/
theorem eval_instantiate (M : Structure U) {xs : List Constant} {body : Term}
    (hfree : ∀ x ∈ xs, x.symbol ∉ body.symbols)
    (houter : ∀ j < xs.length, body.refers j = true → ∀ i < j, xs.reverse[i]? ≠ xs.reverse[j]?)
    {vs : List (Element U)} (hvs : vs.map (·.sort) = xs.map (·.sort)) :
    (M.assign (xs.zip vs)).eval [] (body.instantiate xs) = M.eval vs.reverse body := by
  have hlen : vs.length = xs.length := by
    have hlength := congrArg List.length hvs
    rwa [List.length_map, List.length_map] at hlength
  have hopen := Structure.eval_instantiateAt (M.assign (xs.zip vs)) (xs.reverse.map .const) []
    body []
  rw [List.nil_append, List.nil_append, List.append_nil] at hopen
  change (M.assign (xs.zip vs)).eval [] (body.instantiateAt (xs.reverse.map .const) 0) = _
  -- The body itself mentions none of the constants, so only the environment is left to compare.
  have hbody : Structure.Agree (· ∈ body.symbols) (M.assign (xs.zip vs)) M := by
    refine (M.agree_assign (xs.zip vs)).mono fun f hf e he hef => ?_
    exact hfree e.1 (List.of_mem_zip he).1 (hef ▸ hf)
  rw [List.length_nil] at hopen
  rw [hopen, Structure.eval_congr body _ hbody]
  refine M.eval_refers body fun k hk => ?_
  rw [List.map_map, List.getElem?_map]
  by_cases hlt : k < xs.length
  · obtain ⟨x, hx⟩ : ∃ x, xs.reverse[k]? = some x :=
      ⟨_, List.getElem?_eq_getElem (by rwa [List.length_reverse])⟩
    obtain ⟨v, hv⟩ : ∃ v, vs.reverse[k]? = some v :=
      ⟨_, List.getElem?_eq_getElem (by rwa [List.length_reverse, hlen])⟩
    have hs : v.sort = x.sort := by
      have hsorts : (vs.reverse.map (·.sort))[k]? = (xs.reverse.map (·.sort))[k]? := by
        rw [List.map_reverse, List.map_reverse, hvs]
      rw [List.getElem?_map, List.getElem?_map, hv, hx] at hsorts
      exact Option.some.inj hsorts
    rw [hx, hv, Option.map_some, Function.comp_apply]
    refine congrArg some (M.eval_assign_zip hlen hx hv hs (fun i hi hxi => ?_) [])
    exact houter k hlt hk i hi (hxi.trans hx.symm)
  · rw [List.getElem?_eq_none (by rw [List.length_reverse]; omega),
      List.getElem?_eq_none (by rw [List.length_reverse]; omega)]
    rfl

/-- The matrix of a formula over constants for its variables. -/
theorem matrix_ok {t m : Term} {xs : List Constant} (h : matrix t = .ok (xs, m)) :
    xs = (prenex t).1 ∧ m = (prenex t).2.instantiate xs := by
  unfold matrix at h
  dsimp only at h
  split at h
  · cases h
  · obtain ⟨rfl, rfl⟩ := Prod.mk.inj (Except.ok.inj h)
    exact ⟨rfl, rfl⟩

/-- **Without capture** a formula is true if its matrix is, for all values of the constants that
stand for its variables. -/
theorem sat_iff_matrix (M : Structure U) {t m : Term} {xs : List Constant}
    (h : matrix t = .ok (xs, m)) (hcapture : CaptureFree t) :
    M.Sat t ↔ ∀ vs : List (Element U), vs.map (·.sort) = xs.map (·.sort) →
      (M.assign (xs.zip vs)).Sat m := by
  obtain ⟨rfl, rfl⟩ := matrix_ok h
  rw [Structure.Sat, holds_prenex]
  refine forall_congr' fun vs => imp_congr_right fun hvs => ?_
  rw [List.append_nil, Structure.Sat, eval_instantiate M hcapture.free hcapture.outer hvs]

end Problem
end Horn
