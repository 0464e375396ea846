import Horn.Proofs.Semantics.Structure

/-!
# The meaning of terms

* `M.eval env t` is the element that `t` denotes in the structure `M`; `env` holds the elements of
  the bound variables, the innermost first. `M.Sat t` says that the formula `t` is true in `M`.
* `M.assign σ` is `M` with other values of some constants, and `M.relate R` is `M` with other
  relations for some symbols.

A term only depends on the symbols that occur in it: this is `Structure.eval_congr`, in terms of
`Structure.Agree`.
-/

namespace Horn

variable {U : Universe}

namespace Structure

/-! ### Evaluation -/

mutual

/-- The element that a term denotes. -/
noncomputable def eval (M : Structure U) (env : List (Element U)) : Term → Element U
  | .lit a => a.denote
  -- A variable that is not bound has no meaning; some element is taken.
  | .bound i s => (env[i]?).getD ⟨s, U.default s⟩
  | .fn f as => ⟨f.range, M.symbol f (evalList M env as)⟩
  | .op f as => f.denote M (evalList M env as)
  -- The last variable of a quantifier is the innermost one.
  | .quant .all xs b => .truth (∀ es : List (Element U),
      es.map (·.sort) = xs.reverse.map (·.sort) → (eval M (es ++ env) b).Holds)
  | .quant .some xs b => .truth (∃ es : List (Element U),
      es.map (·.sort) = xs.reverse.map (·.sort) ∧ (eval M (es ++ env) b).Holds)

/-- The elements that the terms of a list denote. -/
noncomputable def evalList (M : Structure U) (env : List (Element U)) :
    List Term → List (Element U)
  | [] => []
  | a :: as => eval M env a :: evalList M env as

end

@[simp] theorem evalList_eq_map (M : Structure U) (env : List (Element U)) (as : List Term) :
    M.evalList env as = as.map (M.eval env) := by
  induction as with
  | nil => rfl
  | cons a as ih => rw [evalList, ih, List.map_cons]

/-- A formula is true in a structure. -/
def Sat (M : Structure U) (t : Term) : Prop := (M.eval [] t).Holds

/-- A negation is true if the formula is not. -/
theorem sat_neg (M : Structure U) (t : Term) : M.Sat (.neg t) ↔ ¬M.Sat t := by
  rw [Sat, Term.neg, eval, evalList_eq_map, Op.denote, Element.holds_truth]
  rfl

/-- A conjunction is true if all conjuncts are. -/
theorem sat_and (M : Structure U) (ts : List Term) :
    M.Sat (.op .and ts) ↔ ∀ t ∈ ts, M.Sat t := by
  rw [Sat, eval, evalList_eq_map, Op.denote, Element.holds_truth, List.forall_mem_map]
  rfl

/-- An equation is true if both sides denote the same. -/
theorem sat_eq (M : Structure U) (a b : Term) : M.Sat (.eq a b) ↔ M.eval [] a = M.eval [] b := by
  rw [Sat, Term.eq, eval, evalList_eq_map, Op.denote, Element.holds_truth]
  simp only [List.map_cons, List.map_nil, List.mem_cons, List.not_mem_nil, or_false]
  constructor
  · exact fun h => h _ (.inl rfl) _ (.inr rfl)
  · rintro h x (rfl | rfl) y (rfl | rfl) <;> simp [h]

/-- A conditional is its first branch if the condition is true. -/
theorem eval_ite_of_sat {M : Structure U} {c : Term} (h : M.Sat c) (a b : Term) :
    M.eval [] (.op .ite [c, a, b]) = M.eval [] a := by
  rw [eval, evalList_eq_map, Op.denote]
  exact if_pos h

/-- A conditional is its second branch if the condition is not true. -/
theorem eval_ite_of_not_sat {M : Structure U} {c : Term} (h : ¬M.Sat c) (a b : Term) :
    M.eval [] (.op .ite [c, a, b]) = M.eval [] b := by
  rw [eval, evalList_eq_map, Op.denote]
  exact if_neg h

/-! ### Structures that agree -/

/-- Two structures agree on some symbols, and on all that the theory of the operators leaves
open. -/
structure Agree (F : Symbol → Prop) (M N : Structure U) : Prop where
  symbol : ∀ f, F f → M.symbol f = N.symbol f
  unspecified : M.unspecified = N.unspecified

namespace Agree

variable {F G : Symbol → Prop} {M N : Structure U}

theorem refl (F : Symbol → Prop) (M : Structure U) : Agree F M M := ⟨fun _ _ => rfl, rfl⟩

theorem symm (h : Agree F M N) : Agree F N M :=
  ⟨fun f hf => (h.symbol f hf).symm, h.unspecified.symm⟩

theorem mono (h : Agree G M N) (hFG : ∀ f, F f → G f) : Agree F M N :=
  ⟨fun f hf => h.symbol f (hFG f hf), h.unspecified⟩

theorem trans {L : Structure U} (h : Agree F L M) (h' : Agree F M N) : Agree F L N :=
  ⟨fun f hf => (h.symbol f hf).trans (h'.symbol f hf), h.unspecified.trans h'.unspecified⟩

end Agree

/-- Operators only depend on what a structure settles about them. -/
theorem denote_congr {M N : Structure U} (h : M.unspecified = N.unspecified) (f : Op) :
    f.denote M = f.denote N := by
  funext as
  cases f <;> simp only [Op.denote, Op.quotient, Op.ratio, Op.power, h]

mutual

/-- **The frame fact.** A term denotes the same in structures that agree on its symbols. -/
theorem eval_congr {M N : Structure U} :
    ∀ (t : Term) (env : List (Element U)), Agree (· ∈ t.symbols) M N → M.eval env t = N.eval env t
  | .lit _, _, _ => by rw [eval, eval]
  | .bound _ _, _, _ => by rw [eval, eval]
  | .fn f as, env, h => by
    have has := evalList_congr as env
      (h.mono fun g hg => by rw [Term.symbols]; exact List.mem_cons_of_mem f hg)
    rw [eval, eval, has, h.symbol f (by rw [Term.symbols]; exact List.mem_cons_self)]
  | .op f as, env, h => by
    have has := evalList_congr as env (h.mono fun g hg => by rwa [Term.symbols])
    rw [eval, eval, has, denote_congr h.unspecified]
  -- Quantifiers change the environment, never the structure.
  | .quant .all xs b, env, h => by
    have hb := fun es : List (Element U) =>
      eval_congr b (es ++ env) (h.mono fun g hg => by rwa [Term.symbols])
    simp only [eval, hb]
  | .quant .some xs b, env, h => by
    have hb := fun es : List (Element U) =>
      eval_congr b (es ++ env) (h.mono fun g hg => by rwa [Term.symbols])
    simp only [eval, hb]

/-- The frame fact for lists. -/
theorem evalList_congr {M N : Structure U} :
    ∀ (as : List Term) (env : List (Element U)), Agree (· ∈ Term.symbolsList as) M N →
      M.evalList env as = N.evalList env as
  | [], _, _ => by rw [evalList, evalList]
  | a :: as, env, h => by
    have ha := eval_congr a env (h.mono fun g hg => by simp [Term.symbolsList, hg])
    have has := evalList_congr as env
      (h.mono fun g hg => by rw [Term.symbolsList]; exact List.mem_append_right _ hg)
    rw [evalList, evalList, ha, has]

end

/-- The frame fact for the truth of formulas. -/
theorem sat_congr {M N : Structure U} {t : Term} (h : Agree (· ∈ t.symbols) M N) :
    M.Sat t ↔ N.Sat t := by
  unfold Sat
  rw [eval_congr t [] h]

/-! ### Changing a structure -/

/-- The structure in which some constants have other values; of two values for a constant the last
one counts. -/
noncomputable def assign (M : Structure U) (σ : List (Constant × Element U)) : Structure U where
  symbol f as :=
    -- Only constants are changed, not functions of the same name.
    match as, σ.reverse.find? (·.1.symbol == f) with
    | [], some p => p.2.get f.range
    | as, _ => M.symbol f as
  unspecified := M.unspecified

/-- Structures that agree on some symbols still do when constants get the same values. -/
theorem Agree.assign {F : Symbol → Prop} {M N : Structure U} (h : Agree F M N)
    (σ : List (Constant × Element U)) : Agree F (M.assign σ) (N.assign σ) := by
  refine ⟨fun f hf => ?_, h.unspecified⟩
  funext as
  simp only [Structure.assign, h.symbol f hf]

/-- A constant has the value that it has been given. -/
theorem eval_assign_const (M : Structure U) {c : Constant} {e : Element U} (h : e.sort = c.sort)
    (env : List (Element U)) : (M.assign [(c, e)]).eval env (.const c) = e := by
  obtain ⟨s, v⟩ := e
  obtain rfl : s = c.sort := h
  simp [Term.const, eval, assign, Constant.symbol]

/-- A constant is equal to a numeral if its value is that number. -/
theorem sat_eq_int (M : Structure U) {c : Constant} {e : Element U} (h : e.sort = c.sort)
    (n : Int) : (M.assign [(c, e)]).Sat (.op .eq [.const c, .int n]) ↔ e = ⟨.int, n⟩ := by
  rw [Sat, eval, evalList_eq_map, List.map_cons, List.map_cons, List.map_nil,
    eval_assign_const M h, Op.denote, Element.holds_truth]
  simp only [Term.int, eval, Literal.denote]
  constructor
  · exact fun hall => hall _ (by simp) _ (by simp)
  · rintro rfl
    simp

/-- The structure in which some symbols have other relations. -/
noncomputable def relate (M : Structure U) (R : Symbol → Option (List (Element U) → Prop)) :
    Structure U where
  symbol f as :=
    match R f with
    | some r => (Element.truth (r as)).get f.range
    | none => M.symbol f as
  unspecified := M.unspecified

/-- Only the symbols that have got a relation mean something else. -/
theorem agree_relate (M : Structure U) (R : Symbol → Option (List (Element U) → Prop)) :
    Agree (fun f => R f = none) (M.relate R) M := by
  refine ⟨fun f hf => ?_, rfl⟩
  funext as
  simp only [relate, hf]

end Structure
end Horn
