import Horn.Proofs.Instance.Meaning

/-!
# Inlining preserves meaning

Where every defined predicate is as its definition says, a term denotes what it denotes after its
definitions have been inlined (`Instance.eval_expand`). The term may have variables that are bound
around it, and the definitions may be about each other and contain quantifiers: nothing is asked of
the order in which predicates are unfolded, since each unfolding alone keeps the meaning
(`Instance.standsIn_apply`). Inlining only fails if the engine refuses to call an operator with as
many arguments as an application of it has, and looking expansions up that have been made before
changes nothing.

`Instance.mirrored` has two definitions about each other, one of them with a quantifier.
-/

namespace Horn
namespace Instance

variable {U : Universe} {inst : Instance}

/-- **Inlining preserves meaning.** A well-sorted term is expanded, unless the engine refuses to
build an application anew. Its expansion is also what the expansion that remembers what it has made
comes to, and denotes what the term does, for all values of the constants and of the variables that
are bound around the two. -/
theorem eval_expand (hfit : inst.FittingDefinitions) {M : Structure U}
    (hM : M.ReadsDefinitions inst.preds) (env : List (Element U)) {t : Term}
    (hw : t.isWellSorted (env.map (·.sort)) = true) (callable : Callable) :
    (inst.expand t callable = .error .illSorted ∧ ¬callable.Reapplies) ∨
      ∃ u, inst.expand t callable = .ok u ∧
        (∃ memory, inst.expandRemembered callable t [] = .ok (u, memory)) ∧ u.sort = t.sort ∧
        u.isWellSorted (env.map (·.sort)) = true ∧ M.eval env u = M.eval env t := by
  have hexists : ∀ {callable : Callable}, callable.Reapplies → ∃ u,
      inst.expand t callable = .ok u ∧ inst.StandsIn (fun _ => True) (env.map (·.sort)) t u :=
    fun hcall => exists_expandFrom hcall hfit (closed_true inst) _ [] hw (among_true t)
  obtain ⟨u, hu, hstands⟩ := hexists Callable.reapplies_any
  rcases expand_unlessRefused callable inst t with h | h
  · -- The engine takes all calls that come up.
    rw [hu] at h
    obtain ⟨memory, -, hmemory⟩ := @expandRemembered_eq inst callable t [] (List.forall_mem_nil _)
    refine .inr ⟨u, h, ⟨memory, ?_⟩, hstands.sort, hstands.wellSorted,
      hstands.eval (hM.readsOn _) rfl⟩
    rw [hmemory, h]
    rfl
  · refine .inl ⟨h, fun hcall => ?_⟩
    obtain ⟨u', hu', -⟩ := hexists hcall
    rw [h] at hu'
    cases hu'

/-! ### Definitions about each other -/

/-- `P(x) := Q(x)`. -/
def direct : Predicate :=
  ⟨"P", [.int], [.int], [0], some ⟨[⟨"x", .int⟩], .fn ⟨"Q", [.int], .bool⟩ [.const ⟨"x", .int⟩]⟩⟩

/-- `Q(x) := ∃ y, P(y) ∧ x = y`. -/
def searched : Predicate :=
  ⟨"Q", [.int], [.int], [0], some ⟨[⟨"x", .int⟩], .quant .some [⟨"y", .int⟩]
    (.op .and [.fn direct.symbol [.bound 0 .int], .eq (.const ⟨"x", .int⟩) (.bound 0 .int)])⟩⟩

/-- Each of the two predicates is defined by the other one. -/
def mirrored : Instance := ⟨"mirrored", [direct, searched], [], [[], []], [[], []], 0, []⟩

/-- Both predicates hold of the integer one only. -/
noncomputable def atOne : Structure default :=
  ((default : Structure default).redefine direct (· = [⟨.int, (1 : ℤ)⟩])).redefine searched
    (· = [⟨.int, (1 : ℤ)⟩])

theorem rel_direct (es : List (Element default)) :
    atOne.Rel direct es ↔ es = [⟨.int, (1 : ℤ)⟩] := by
  rw [atOne, Structure.rel_redefine_of_ne _ (by decide), Structure.rel_redefine_self]

theorem rel_searched (es : List (Element default)) :
    atOne.Rel searched es ↔ es = [⟨.int, (1 : ℤ)⟩] := by
  rw [atOne, Structure.rel_redefine_self]

/-- Values of constants make no difference to a predicate with arguments. -/
theorem rel_assign_cons (M : Structure U) (σ : List (Constant × Element U)) (q : Predicate)
    (e : Element U) (es : List (Element U)) :
    (M.assign σ).Rel q (e :: es) = M.Rel q (e :: es) := by
  unfold Structure.assign Structure.Rel
  cases σ.reverse.find? (·.1.symbol == q.symbol) <;> rfl

/-- The two definitions agree with the structure. -/
theorem readsDefinitions_atOne : atOne.ReadsDefinitions mirrored.preds := by
  intro q d es hq hd hes
  simp only [mirrored, List.mem_cons, List.not_mem_nil, or_false] at hq
  rcases hq with rfl | rfl
  · cases hd
    obtain ⟨e, rfl, hs⟩ := fits_singleton.1 hes
    have hx : (atOne.assign [(⟨"x", .int⟩, e)]).eval [] (.const ⟨"x", .int⟩) = e :=
      Structure.eval_assign_const atOne (c := ⟨"x", .int⟩) hs []
    refine Iff.trans ?_ (Structure.sat_application _ searched [.const ⟨"x", .int⟩]).symm
    rw [List.map_singleton, List.zip_cons_cons, List.zip_nil_left, hx, rel_assign_cons, rel_direct,
      rel_searched]
  · cases hd
    obtain ⟨e, rfl, hs⟩ := fits_singleton.1 hes
    have hx : ∀ env, (atOne.assign [(⟨"x", .int⟩, e)]).eval env (.const ⟨"x", .int⟩) = e :=
      Structure.eval_assign_const atOne (c := ⟨"x", .int⟩) hs
    -- The only candidate for the bound variable is the element itself.
    have hp : (⟨direct.symbol.range,
        (atOne.assign [(⟨"x", .int⟩, e)]).symbol direct.symbol [e]⟩ : Element default).Holds ↔
        atOne.Rel direct [e] :=
      (iff_of_eq (Element.get_mk _)).trans (iff_of_eq (rel_assign_cons atOne _ direct e []))
    rw [rel_searched, ← rel_direct]
    simpa [Structure.Sat, Structure.eval, Op.denote, Term.eq, hx, hs] using hp.symm

/-- An application to a bound variable becomes a quantified formula, in which the application of the
same predicate is left and the variable is counted past the new binder. -/
theorem eval_expand_mirrored :
    mirrored.FittingDefinitions ∧ atOne.ReadsDefinitions mirrored.preds ∧
      ∃ u, mirrored.expand (.fn direct.symbol [.bound 0 .int]) = .ok u ∧
        u = .quant .some [⟨"y", .int⟩] (.op .and [.fn direct.symbol [.bound 0 .int],
          .eq (.bound 1 .int) (.bound 0 .int)]) ∧
        atOne.eval [⟨.int, (1 : ℤ)⟩] u =
          atOne.eval [⟨.int, (1 : ℤ)⟩] (.fn direct.symbol [.bound 0 .int]) := by
  have hfit : mirrored.FittingDefinitions := by decide
  rcases eval_expand hfit readsDefinitions_atOne [⟨.int, (1 : ℤ)⟩]
    (t := .fn direct.symbol [.bound 0 .int]) (by decide) .any with ⟨-, h⟩ | ⟨u, hu, -, -, -, heval⟩
  · exact absurd Callable.reapplies_any h
  · refine ⟨hfit, readsDefinitions_atOne, u, hu, ?_, heval⟩
    exact Except.ok.inj (hu.symm.trans rfl)

end Instance
end Horn
