import Horn.Proofs.Semantics.Eval
import Horn.Term.Typed

/-!
# Well-sorted terms

A logic engine only knows terms in which every application fits its arguments. `Term.isWellSorted`
is the test, relative to the sorts of the bound variables (the innermost first), and
`Term.IsFormula` are the closed formulas that pass it.

`Op.fits` reads off the sorts of the arguments alone, so that an application keeps fitting when its
arguments are replaced by others of the same sorts. Arguments that are not of the sorts of a
signature may stand for others that are (`Term.castAll?_spec`). A well-sorted term denotes an
element of its sort (`Structure.sort_eval`).
-/

namespace Horn

/-- Whether an operator can be applied to arguments of the given sorts. -/
def Op.fits : Op → List TermSort → Bool
  | .and, ss | .or, ss => ss.all (· == .bool)
  | .not, ss => ss == [.bool]
  | .implies, ss | .xor, ss => ss == [.bool, .bool]
  | .eq, s :: t :: ss => (t :: ss).all (· == s)
  | .distinct, s :: ss => ss.all (· == s)
  | .ite, [c, s, t] => c == .bool && s == t
  | .add, s :: ss | .sub, s :: ss | .mul, s :: ss => s.isArith && ss.all (· == s)
  | .neg, [s] => s.isArith
  | .pow, [s, t] | .lt, [s, t] | .le, [s, t] | .gt, [s, t] | .ge, [s, t] => s.isArith && s == t
  | .div, ss | .mod, ss => ss == [.int, .int]
  | .divide, s :: t :: ss => (s :: t :: ss).all (· == .real)
  | .toReal, ss => ss == [.int]
  | .toInt, ss => ss == [.real]
  | .select, [.array i _, s] => s == i
  | .store, [.array i e, s, t] => s == i && t == e
  | .bvAdd, s :: ss | .bvSub, s :: ss | .bvMul, s :: ss => s.isBitVec && ss.all (· == s)
  | .bvUlt, [s, t] | .bvUle, [s, t] | .bvUgt, [s, t] | .bvUge, [s, t] | .bvSlt, [s, t]
  | .bvSle, [s, t] => s.isBitVec && s == t
  | .other _ _, _ => true
  | _, _ => false

namespace Term

mutual

/-- Whether every application in a term fits its arguments, and every bound variable is bound at
its sort. -/
def isWellSorted (bound : List TermSort) : Term → Bool
  | .lit _ => true
  | .bound i s => bound[i]? == some s
  | .fn f as => as.map sort == f.domain && isWellSortedList bound as
  | .op f as => f.fits (as.map sort) && isWellSortedList bound as
  | .quant _ xs b => b.isBool && isWellSorted (xs.reverse.map (·.sort) ++ bound) b

/-- Whether all terms of a list are well-sorted. -/
def isWellSortedList (bound : List TermSort) : List Term → Bool
  | [] => true
  | a :: as => isWellSorted bound a && isWellSortedList bound as

end

@[simp] theorem isWellSortedList_iff (bound : List TermSort) (as : List Term) :
    isWellSortedList bound as = true ↔ ∀ a ∈ as, a.isWellSorted bound = true := by
  induction as with
  | nil => simp [isWellSortedList]
  | cons a as ih => simp [isWellSortedList, ih]

/-- An application to well-sorted arguments of the right sorts is well-sorted. -/
theorem isWellSorted_fn {f : Symbol} {as : List Term} {bound : List TermSort}
    (hs : as.map sort = f.domain) (hw : ∀ a ∈ as, a.isWellSorted bound = true) :
    (fn f as).isWellSorted bound = true := by
  rw [isWellSorted, Bool.and_eq_true, beq_iff_eq, isWellSortedList_iff]
  exact ⟨hs, hw⟩

/-- A closed and well-sorted formula. -/
structure IsFormula (t : Term) : Prop where
  isBool : t.isBool = true
  wellSorted : t.isWellSorted [] = true

instance (t : Term) : Decidable t.IsFormula :=
  decidable_of_iff (t.isBool = true ∧ t.isWellSorted [] = true)
    ⟨fun h => ⟨h.1, h.2⟩, fun h => ⟨h.1, h.2⟩⟩

/-! ### Arguments at the sorts of a signature -/

/-- A term at another sort has that sort; it applies the same symbols and stays well-sorted. -/
theorem cast?_spec {s : TermSort} {t u : Term} (h : cast? s t = some u) :
    u.sort = s ∧ u.symbols = t.symbols ∧
      ∀ bound, t.isWellSorted bound = true → u.isWellSorted bound = true := by
  unfold cast? at h
  split at h
  · next hs =>
    obtain rfl := Option.some.inj h
    exact ⟨hs, rfl, fun _ ht => ht⟩
  · split at h
    -- A number stands for a truth value or for a real; nothing else is cast.
    case h_4 => cases h
    all_goals
      next hs _ =>
        obtain rfl := Option.some.inj h
        refine ⟨rfl, by simp [ofTruth, int, symbols, symbolsList], fun bound ht => ?_⟩
        simp [ofTruth, int, isWellSorted, isWellSortedList, Op.fits, sort, sortHeads, opSort,
          Literal.sort, ht, hs]

/-- Arguments at other sorts. -/
theorem castAll?_spec {ss : List TermSort} {ts us : List Term} (h : castAll? ss ts = some us) :
    us.map sort = ss ∧ us.flatMap symbols = ts.flatMap symbols ∧
      ∀ bound, (∀ t ∈ ts, t.isWellSorted bound = true) → ∀ u ∈ us, u.isWellSorted bound = true := by
  fun_induction castAll? ss ts generalizing us with
  | case1 =>
    obtain rfl := Option.some.inj h
    simp
  | case2 s ss t ts ih =>
    obtain ⟨u, hu, h⟩ := Option.bind_eq_some_iff.1 h
    obtain ⟨vs, hvs, h⟩ := Option.bind_eq_some_iff.1 h
    obtain rfl := Option.some.inj h
    obtain ⟨hs, hsym, hw⟩ := cast?_spec hu
    obtain ⟨hss, hsyms, hws⟩ := ih hvs
    refine ⟨by rw [List.map_cons, hs, hss], ?_, ?_⟩
    · rw [List.flatMap_cons, List.flatMap_cons, hsym, hsyms]
    · intro bound hts
      rw [List.forall_mem_cons] at hts ⊢
      exact ⟨hw bound hts.1, hws bound hts.2⟩
  | case3 => cases h

/-- There are as many arguments as sorts. -/
theorem length_of_castAll? {ss : List TermSort} {ts us : List Term}
    (h : castAll? ss ts = some us) : ss.length = ts.length := by
  fun_induction castAll? ss ts generalizing us with
  | case1 => rfl
  | case2 s ss t ts ih =>
    obtain ⟨u, -, h⟩ := Option.bind_eq_some_iff.1 h
    obtain ⟨vs, hvs, -⟩ := Option.bind_eq_some_iff.1 h
    rw [List.length_cons, List.length_cons, ih hvs]
  | case3 => cases h

end Term

/-- What applying a symbol to arguments amounts to. -/
theorem Symbol.app?_spec {f : Symbol} {args : List Term} {t : Term} (h : f.app? args = some t) :
    ∃ bs, t = .fn f bs ∧ Term.castAll? f.domain args = some bs := by
  unfold Symbol.app? at h
  obtain ⟨bs, hbs, rfl⟩ := Option.map_eq_some_iff.1 h
  exact ⟨bs, rfl, hbs⟩

/-- A symbol is applied to its arguments at the sorts of its domain. -/
theorem Symbol.app?_of_castAll? {f : Symbol} {args bs : List Term}
    (h : Term.castAll? f.domain args = some bs) : f.app? args = some (.fn f bs) := by
  rw [Symbol.app?, h, Option.map_some]

/-! ### Values have the sort of their term -/

variable {U : Universe}

namespace Op

/-- A number is of the sort of the first argument. -/
theorem sort_numeric {onInt : List ℤ → ℤ} {onReal : List ℝ → ℝ} {a : Element U}
    {as : List (Element U)} (h : a.sort.isArith = true) :
    (numeric onInt onReal (a :: as)).sort = a.sort := by
  have hs : a.sort = .int ∨ a.sort = .real := by
    cases hs : a.sort <;> simp [hs, TermSort.isArith] at h ⊢
  rcases hs with hs | hs <;> simp [numeric, Element.nth, hs]

/-- A word is of the sort of the first argument. -/
theorem sort_word {onWords : (w : Nat) → List (BitVec w) → BitVec w} {a : Element U}
    {as : List (Element U)} (h : a.sort.isBitVec = true) :
    (word onWords (a :: as)).sort = a.sort := by
  cases hs : a.sort <;> simp [hs, TermSort.isBitVec] at h
  simp [word, width, Element.nth, hs]

/-- A power is of the sort of its base. -/
theorem sort_power (M : Structure U) {a : Element U} {as : List (Element U)}
    (h : a.sort.isArith = true) : (power M (a :: as)).sort = a.sort := by
  have hs : a.sort = .int ∨ a.sort = .real := by
    cases hs : a.sort <;> simp [hs, TermSort.isArith] at h ⊢
  rcases hs with hs | hs <;> simp [power, Element.nth, hs]

/-- An integral quotient is an integer. -/
theorem sort_quotient (M : Structure U) (f : Op) (divide : ℤ → ℤ → ℤ) (as : List (Element U)) :
    (quotient M f divide as).sort = .int := by
  unfold quotient
  split <;> rfl

/-- What is looked up is of the sort of the elements of the array. -/
theorem sort_lookUp {a : Element U} {as : List (Element U)} {i e : TermSort}
    (h : a.sort = .array i e) : (lookUp (a :: as)).sort = e := by
  obtain ⟨s, v⟩ := a
  cases h
  rfl

/-- An array keeps its sort when it is updated. -/
theorem sort_update (as : List (Element U)) : (update as).sort = (Element.nth as 0).sort := by
  unfold update
  split
  · next heq => rw [heq]
  · rfl

/-- An operator that fits its arguments makes an element of the expected sort. -/
theorem sort_denote (M : Structure U) (f : Op) (as : List (Element U))
    (h : f.fits (as.map (·.sort)) = true) :
    (f.denote M as).sort = Term.opSort f (as.map (·.sort)) := by
  cases f
  case ite =>
    match as, h with
    | [c, a, b], h =>
      simp only [List.map_cons, List.map_nil, fits, Bool.and_eq_true, beq_iff_eq] at h
      simp only [denote, List.map_cons, Term.opSort]
      split
      · rfl
      · exact h.2.symm
  case add | sub | mul | neg | pow =>
    -- These have the sort of their first argument, and that is a number.
    cases as with
    | nil => simp [fits] at h
    | cons a as =>
      have ha : a.sort.isArith = true := by
        rcases as with _ | ⟨b, _ | ⟨c, as⟩⟩ <;> simp [fits] at h
        all_goals first | exact h.1 | exact h
      first
        | exact sort_numeric ha
        | exact sort_power M ha
  -- Whatever is left to the structure is of the right sort as well.
  case div | mod => exact sort_quotient M _ _ as
  case bvAdd | bvSub | bvMul =>
    cases as with
    | nil => simp [fits] at h
    | cons a as =>
      simp only [List.map_cons, fits, Bool.and_eq_true] at h
      exact sort_word h.1
  case select =>
    cases as with
    | nil => simp [fits] at h
    | cons a as =>
      cases hs : a.sort <;> simp [hs, fits] at h
      simp only [denote, List.map_cons, hs, Term.opSort]
      exact sort_lookUp hs
  case store =>
    cases as with
    | nil => simp [fits] at h
    | cons a as => exact sort_update (a :: as)
  all_goals rfl

end Op

namespace Structure

mutual

/-- **A well-sorted term denotes an element of its sort.** -/
theorem sort_eval (M : Structure U) : ∀ (t : Term) (env : List (Element U)),
    t.isWellSorted (env.map (·.sort)) = true → (M.eval env t).sort = t.sort
  | .lit a, env, _ => by cases a <;> rfl
  | .bound i s, env, h => by
    simp only [Term.isWellSorted, beq_iff_eq, List.getElem?_map, Option.map_eq_some_iff] at h
    obtain ⟨e, he, rfl⟩ := h
    rw [eval, he]
    rfl
  | .fn f as, env, _ => rfl
  | .op f as, env, h => by
    simp only [Term.isWellSorted, Bool.and_eq_true] at h
    -- The operator sees the sorts of the argument terms.
    have has := sorts_evalList M as env h.2
    rw [eval, Op.sort_denote M f _ (by rw [has]; exact h.1), has, Term.sort,
      Term.sortHeads_eq_map]
  | .quant .all xs b, env, _ => rfl
  | .quant .some xs b, env, _ => rfl

/-- Well-sorted terms denote elements of their sorts. -/
theorem sorts_evalList (M : Structure U) : ∀ (as : List Term) (env : List (Element U)),
    Term.isWellSortedList (env.map (·.sort)) as = true →
      (M.evalList env as).map (·.sort) = as.map Term.sort
  | [], _, _ => rfl
  | a :: as, env, h => by
    rw [Term.isWellSortedList, Bool.and_eq_true] at h
    rw [evalList, List.map_cons, List.map_cons, sort_eval M a env h.1, sorts_evalList M as env h.2]

end

/-- Well-sorted arguments denote elements that fit their sorts. -/
theorem fits_eval_env (M : Structure U) (env : List (Element U)) {as : List Term}
    (h : ∀ a ∈ as, a.isWellSorted (env.map (·.sort)) = true) :
    (as.map (M.eval env)).map (·.sort) = as.map Term.sort := by
  rw [← evalList_eq_map]
  exact sorts_evalList M as env ((Term.isWellSortedList_iff _ as).2 h)

/-- Closed arguments denote elements that fit their sorts. -/
theorem fits_eval (M : Structure U) {as : List Term} (h : ∀ a ∈ as, a.isWellSorted [] = true) :
    (as.map (M.eval [])).map (·.sort) = as.map Term.sort := M.fits_eval_env [] h

/-- Two structures agree on what well-sorted terms apply some symbols to. -/
structure AgreeOnFitting (F : Symbol → Prop) (M N : Structure U) : Prop where
  symbol : ∀ f, F f → ∀ es : List (Element U), es.map (·.sort) = f.domain →
    M.symbol f es = N.symbol f es
  unspecified : M.unspecified = N.unspecified

theorem AgreeOnFitting.mono {F G : Symbol → Prop} {M N : Structure U} (h : AgreeOnFitting G M N)
    (hFG : ∀ f, F f → G f) : AgreeOnFitting F M N :=
  ⟨fun f hf => h.symbol f (hFG f hf), h.unspecified⟩

mutual

/-- **The frame fact for well-sorted terms.** Only applications to elements of the right sorts
matter. -/
theorem eval_congr_of_fitting {M N : Structure U} : ∀ (t : Term) (env : List (Element U)),
    AgreeOnFitting (· ∈ t.symbols) M N → t.isWellSorted (env.map (·.sort)) = true →
      M.eval env t = N.eval env t
  | .lit _, _, _, _ => by rw [eval, eval]
  | .bound _ _, _, _, _ => by rw [eval, eval]
  | .fn f as, env, h, hw => by
    rw [Term.isWellSorted, Bool.and_eq_true, beq_iff_eq] at hw
    have has := evalList_congr_of_fitting as env
      (h.mono fun g hg => by rw [Term.symbols]; exact List.mem_cons_of_mem f hg) hw.2
    have hfit : (N.evalList env as).map (·.sort) = f.domain :=
      (sorts_evalList N as env hw.2).trans hw.1
    rw [eval, eval, has, h.symbol f (by rw [Term.symbols]; exact List.mem_cons_self) _ hfit]
  | .op f as, env, h, hw => by
    rw [Term.isWellSorted, Bool.and_eq_true] at hw
    have has := evalList_congr_of_fitting as env (h.mono fun g hg => by rwa [Term.symbols]) hw.2
    rw [eval, eval, has, denote_congr h.unspecified]
  | .quant q xs b, env, h, hw => by
    rw [Term.isWellSorted, Bool.and_eq_true] at hw
    -- The bound variables range over elements of their sorts.
    have hb : ∀ es : List (Element U), es.map (·.sort) = xs.reverse.map (·.sort) →
        M.eval (es ++ env) b = N.eval (es ++ env) b := fun es hes =>
      eval_congr_of_fitting b (es ++ env) (h.mono fun g hg => by rwa [Term.symbols])
        (by rw [List.map_append, hes]; exact hw.2)
    cases q with
    | all =>
      rw [eval, eval]
      exact congrArg Element.truth (propext (forall₂_congr fun es hes => by rw [hb es hes]))
    | some =>
      rw [eval, eval]
      exact congrArg Element.truth
        (propext (exists_congr fun es => and_congr_right fun hes => by rw [hb es hes]))

/-- The frame fact for lists of well-sorted terms. -/
theorem evalList_congr_of_fitting {M N : Structure U} : ∀ (as : List Term) (env : List (Element U)),
    AgreeOnFitting (· ∈ Term.symbolsList as) M N →
      Term.isWellSortedList (env.map (·.sort)) as = true → M.evalList env as = N.evalList env as
  | [], _, _, _ => by rw [evalList, evalList]
  | a :: as, env, h, hw => by
    rw [Term.isWellSortedList, Bool.and_eq_true] at hw
    have ha := eval_congr_of_fitting a env (h.mono fun g hg => by simp [Term.symbolsList, hg]) hw.1
    have has := evalList_congr_of_fitting as env
      (h.mono fun g hg => by rw [Term.symbolsList]; exact List.mem_append_right _ hg) hw.2
    rw [evalList, evalList, ha, has]

end

end Structure
end Horn
