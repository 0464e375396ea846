import Horn.Engine
import Horn.Proofs.Semantics.Sorting

/-!
# What is relied on in a logic engine

Three assumptions about an engine, each about formulas only: its verdicts are right
(`Engine.Decides`), its models satisfy what has been asked about (`Engine.Evaluates`), and what it
simplifies keeps its meaning (`Engine.Simplifies`). An engine may leave any question open.

A fourth one is that an operator can be called with as many arguments as its applications have
(`Callable.Reapplies`). It is about failures only: what an engine does that takes every call
(`Engine.lenient`), any engine does that does not fail.

`Engine.literal` decides lists of truth values, rightly, and simplifies nothing.
-/

namespace Horn

/-- An operator can be called with as many arguments as any application of it has. -/
def Callable.Reapplies (callable : Callable) : Prop :=
  ∀ ⦃f : Op⦄ ⦃ss : List TermSort⦄, f.fits ss = true → callable f ss.length = true

theorem Callable.reapplies_any : Callable.any.Reapplies := fun _ _ _ => rfl

namespace Engine

/-- The verdicts of an engine about formulas are right. -/
structure Decides (engine : Engine) : Prop where
  unsat : ∀ {ts : List Term}, (∀ t ∈ ts, t.IsFormula) → engine.check ts = .unsat →
    ∀ {U : Universe} (M : Structure U), ¬∀ t ∈ ts, M.Sat t
  sat : ∀ {ts : List Term} {m : Model}, (∀ t ∈ ts, t.IsFormula) → engine.check ts = .sat m →
    ∃ (U : Universe) (M : Structure U), ∀ t ∈ ts, M.Sat t

/-- The models of an engine are models: all formulas are true in some structure, and a literal that
is given as the value of a term is what the term denotes there. -/
structure Evaluates (engine : Engine) : Prop where
  sat : ∀ {ts : List Term} {m : Model}, (∀ t ∈ ts, t.IsFormula) → engine.check ts = .sat m →
    ∃ (U : Universe) (M : Structure U), (∀ t ∈ ts, M.Sat t) ∧
      ∀ {t : Term} {l : Literal}, t.isWellSorted [] = true → m.eval t = .lit l →
        M.eval [] t = l.denote

/-- Simplifying a formula gives a formula with the same meaning. -/
structure Simplifies (engine : Engine) : Prop where
  isFormula : ∀ {t : Term}, t.IsFormula → (engine.simplify t).IsFormula
  sat_iff : ∀ {t : Term}, t.IsFormula → ∀ {U : Universe} (M : Structure U),
    M.Sat (engine.simplify t) ↔ M.Sat t

/-- The same engine, if it took every call. -/
def lenient (engine : Engine) : Engine := { engine with callable := .any }

/-- The engine that only knows about truth values. -/
def literal : Engine where
  simplify t := t
  check ts :=
    if ts.all Term.isVerum then .sat ⟨id⟩
    else if ts.any Term.isFalsum then .unsat
    else .unknown

end Engine

/-- The literal `true` is true. -/
theorem Structure.sat_of_isVerum {U : Universe} (M : Structure U) {t : Term}
    (h : t.isVerum = true) : M.Sat t := by
  unfold Term.isVerum at h
  split at h
  · simp [Structure.Sat, Structure.eval, Literal.denote]
  · cases h

/-- The literal `false` is not true. -/
theorem Structure.not_sat_of_isFalsum {U : Universe} (M : Structure U) {t : Term}
    (h : t.isFalsum = true) : ¬M.Sat t := by
  unfold Term.isFalsum at h
  split at h
  · simp [Structure.Sat, Structure.eval, Literal.denote]
  · cases h

namespace Engine

theorem decides_literal : literal.Decides := by
  constructor
  case unsat =>
    intro ts _ h U M hM
    unfold literal at h
    dsimp only at h
    split at h
    · cases h
    · split at h
      · next hany =>
        -- One of the formulas is the literal `false`.
        obtain ⟨t, ht, hf⟩ := List.any_eq_true.1 hany
        exact M.not_sat_of_isFalsum hf (hM t ht)
      · cases h
  case sat =>
    intro ts m _ h
    unfold literal at h
    dsimp only at h
    split at h
    · -- All are the literal `true`, in whatever structure.
      next hall => exact ⟨default, default, fun t ht =>
        Structure.sat_of_isVerum _ (List.all_eq_true.1 hall t ht)⟩
    · split at h <;> cases h

theorem Simplifies.lenient {engine : Engine} (h : engine.Simplifies) : engine.lenient.Simplifies :=
  ⟨h.isFormula, h.sat_iff⟩

theorem simplifies_literal : literal.Simplifies := ⟨fun h => h, fun _ _ _ => Iff.rfl⟩

end Engine
end Horn
