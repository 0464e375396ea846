import Horn.Proofs.Instance.Safe
import Horn.Proofs.Problem.Meaning

/-!
# Which loaded clauses are Horn

In a Horn clause the side conditions and the arguments of applications are plain
(`Instance.IsPlainTerm`): they have no quantifier and mention no predicate. Side conditions are
checked when an assertion is read, and the check finds every quantifier and every predicate, also
one that is only used in a later assertion, since it goes by the sort of a symbol and not by the
table of predicates. Two things escape it:

* a variable of the clause, which the check passes over, may coincide with a predicate without
  arguments;
* the arguments of applications are not checked.

`isPlainTerm_iff_of_load` says that nothing else does: a loaded clause is Horn if and only if its
arguments would have passed the check for the predicates of the instance (`Instance.Passes`), and no
variable that occurs in it coincides with one of them.
-/

namespace Horn

namespace Instance

/-- A term without quantifiers and without predicates. -/
structure IsPlainTerm (inst : Instance) (t : Term) : Prop where
  quantifierFree : t.hasQuantifier = false
  predicateFree : inst.predsIn t = []

instance (inst : Instance) (t : Term) : Decidable (inst.IsPlainTerm t) :=
  decidable_of_iff (t.hasQuantifier = false ∧ inst.predsIn t = [])
    ⟨fun h => ⟨h.1, h.2⟩, fun h => ⟨h.1, h.2⟩⟩

/-- A term without quantifiers, in which predicates only occur as the variables that they coincide
with. -/
structure Passes (inst : Instance) (vars : List Constant) (t : Term) : Prop where
  quantifierFree : t.hasQuantifier = false
  coincides : ∀ q ∈ inst.preds, q.symbol ∈ t.symbols → ∃ x ∈ vars, x.symbol = q.symbol

instance (inst : Instance) (vars : List Constant) (t : Term) : Decidable (inst.Passes vars t) :=
  decidable_of_iff (t.hasQuantifier = false ∧
      ∀ q ∈ inst.preds, q.symbol ∈ t.symbols → ∃ x ∈ vars, x.symbol = q.symbol)
    ⟨fun h => ⟨h.1, h.2⟩, fun h => ⟨h.1, h.2⟩⟩

/-- Some variable that occurs in a term coincides with a predicate. -/
def Coincides (inst : Instance) (vars : List Constant) (t : Term) : Prop :=
  ∃ x ∈ vars, x.symbol ∈ t.symbols ∧ ∃ q ∈ inst.preds, q.symbol = x.symbol

instance (inst : Instance) (vars : List Constant) (t : Term) : Decidable (inst.Coincides vars t) :=
  inferInstanceAs (Decidable (∃ x ∈ vars, x.symbol ∈ t.symbols ∧
    ∃ q ∈ inst.preds, q.symbol = x.symbol))

variable {inst : Instance}

theorem predsIn_eq_nil {t : Term} :
    inst.predsIn t = [] ↔ ∀ q ∈ inst.preds, q.symbol ∉ t.symbols := by
  rw [List.eq_nil_iff_forall_not_mem]
  constructor
  · intro h q hq hs
    obtain ⟨p, hp⟩ := List.getElem?_of_mem hq
    exact h p (mem_predsIn.2 ⟨q, hp, hs⟩)
  · intro h p hp
    obtain ⟨q, hq, hs⟩ := mem_predsIn.1 hp
    exact h q (List.mem_of_getElem? hq) hs

/-- A term that passes is plain unless a variable coincides with a predicate. -/
theorem isPlainTerm_iff {vars : List Constant} {t : Term} :
    inst.IsPlainTerm t ↔ inst.Passes vars t ∧ ¬inst.Coincides vars t := by
  constructor
  · rintro ⟨hq, hp⟩
    rw [predsIn_eq_nil] at hp
    refine ⟨⟨hq, fun q hmem hs => absurd hs (hp q hmem)⟩, ?_⟩
    rintro ⟨x, -, hx, q, hmem, hs⟩
    exact hp q hmem (hs ▸ hx)
  · rintro ⟨⟨hq, hv⟩, hc⟩
    refine ⟨hq, predsIn_eq_nil.2 fun q hmem hs => ?_⟩
    obtain ⟨x, hx, hxs⟩ := hv q hmem hs
    exact hc ⟨x, hx, hxs ▸ hs, q, hmem, hxs.symm⟩

end Instance

namespace Problem

/-! ### The check of side conditions -/

mutual

/-- **What the check finds.** A formula in which nothing is hidden has no quantifier, and the only
symbols with a truth value in it are variables of the clause. -/
theorem hidden_eq_none {vars : List Constant} : ∀ {t : Term} {ctx : List TermSort},
    hidden vars t = none → t.Scoped ctx → t.hasQuantifier = false ∧
      ∀ f ∈ t.symbols, f.range = .bool → ∃ x ∈ vars, x.symbol = f
  | .lit _, _, _, _ => ⟨rfl, List.forall_mem_nil _⟩
  | .bound _ _, _, _, _ => ⟨rfl, List.forall_mem_nil _⟩
  | .fn f args, ctx, h, ht => by
    rw [Term.Scoped] at ht
    rw [hidden] at h
    split at h
    · cases h
    · next hf =>
      obtain ⟨hq, hs⟩ := hiddenList_eq_none h ht.2
      rw [Term.hasQuantifier, Term.symbols]
      refine ⟨hq, List.forall_mem_cons.2 ⟨fun hrange => ?_, hs⟩⟩
      -- The symbol itself is a variable of the clause, hence without arguments.
      rw [isPredicate, hrange, beq_self_eq_true, Bool.true_and, Bool.not_eq_true',
        Bool.not_eq_false, Bool.and_eq_true, List.isEmpty_iff, List.contains_iff_mem] at hf
      refine ⟨_, hf.2, ?_⟩
      have hdomain := ht.1
      rw [hf.1] at hdomain
      obtain ⟨name, domain, range⟩ := f
      obtain rfl : domain = [] := hdomain.symm
      obtain rfl : range = .bool := hrange
      rfl
  | .op f args, ctx, h, ht => by
    rw [Term.Scoped] at ht
    rw [hidden] at h
    rw [Term.hasQuantifier, Term.symbols]
    exact hiddenList_eq_none h ht
  | .quant _ _ _, _, h, _ => by cases h

theorem hiddenList_eq_none {vars : List Constant} : ∀ {ts : List Term} {ctx : List TermSort},
    hiddenList vars ts = none → Term.ScopedList ctx ts → Term.hasQuantifierList ts = false ∧
      ∀ f ∈ Term.symbolsList ts, f.range = .bool → ∃ x ∈ vars, x.symbol = f
  | [], _, _, _ => ⟨rfl, List.forall_mem_nil _⟩
  | t :: ts, ctx, h, ht => by
    rw [hiddenList] at h
    split at h
    · cases h
    · next hts =>
      obtain ⟨hq, hs⟩ := hidden_eq_none h ht.1
      obtain ⟨hqs, hss⟩ := hiddenList_eq_none hts ht.2
      rw [Term.hasQuantifierList, hq, hqs, Term.symbolsList]
      exact ⟨rfl, List.forall_mem_append.2 ⟨hs, hss⟩⟩

end

/-- Negating a formula hides nothing. -/
theorem hidden_neg (vars : List Constant) (t : Term) : hidden vars t.neg = hidden vars t := rfl

variable {preds : List Predicate}

/-- Nothing is hidden in the side conditions of a clause that an assertion states. -/
theorem States.hidden_terms {t : Term} {c : Clause} (h : States preds t c) (ht : t.Scoped []) :
    ∀ u ∈ c.terms, hidden c.vars u = none ∧ u.Scoped [] := by
  obtain ⟨m, parts, extra, hm, hparts⟩ := h
  obtain ⟨hscoped₁, hscoped₂⟩ := sides_scoped (matrix_scoped hm ht)
  rw [hparts.terms, List.forall_mem_append]
  constructor
  · intro u hu
    -- A side condition is what the formula it comes from was classified as.
    obtain ⟨v, hv, hclassified⟩ := (exists_of_forall₂ hparts.body).2 _ (mem_conditions.1 hu)
    obtain rfl := hclassified.eq_of_condition
    refine ⟨?_, conjuncts_scoped hscoped₁ v hv⟩
    cases hclassified
    assumption
  · have hhead := hparts.head
    intro u hu
    generalize c.conclusion = conclusion at hhead
    cases hhead with
    | nothing _ => cases hu
    | app _ => cases hu
    -- The head is a condition: its negation is one more side condition.
    | condition hclassified =>
      obtain rfl := List.mem_singleton.1 hu
      rw [hidden_neg]
      refine ⟨?_, Term.scoped_op.2 (List.forall_mem_singleton.2 hscoped₂)⟩
      generalize (sides m).2 = head at hclassified
      cases hclassified
      assumption

/-- All arguments of the applications of a clause. -/
def arguments (c : Clause) : List Term :=
  c.apps.flatMap (·.2) ++ c.conclusion.toList.flatMap (·.2)

theorem mem_parts {c : Clause} {t : Term} :
    t ∈ c.parts ↔ t ∈ c.terms ∨ t ∈ arguments c := by
  rw [Clause.parts, arguments, List.append_assoc, List.mem_append]

/-- **Which loaded clauses are Horn.** The side conditions of a loaded clause pass the check. All
side conditions and arguments are plain if and only if the arguments would have passed it too, and
no variable that occurs in the clause coincides with a predicate. This is so however scripts are
read. -/
theorem isPlainTerm_iff_of_load {σ : Type} {read : Smt.Reader} (hread : read.IsScoped)
    {name text : String} {s : σ} {inst : Instance}
    (hload : ((load name text read : Act σ Instance).exec s).1 = .ok inst) {c : Clause}
    (hc : c ∈ inst.clauses) :
    (∀ t ∈ c.terms, inst.Passes c.vars t) ∧
      ((∀ t ∈ c.parts, inst.IsPlainTerm t) ↔
        (∀ a ∈ arguments c, inst.Passes c.vars a) ∧ ∀ t ∈ c.parts, ¬inst.Coincides c.vars t) := by
  obtain ⟨ts, hts, hinst⟩ := load_ok hload
  obtain ⟨t, ht, hstates⟩ := (exists_of_forall₂ (ofAssertions_ok hinst)).2 c hc
  -- A predicate has a truth value, whether it was in the table at the time of the check or not.
  have hterms : ∀ u ∈ c.terms, inst.Passes c.vars u := by
    intro u hu
    obtain ⟨hhidden, hscoped⟩ :=
      hstates.hidden_terms (hread hts t ht) u hu
    obtain ⟨hq, hs⟩ := hidden_eq_none hhidden hscoped
    exact ⟨hq, fun q _ hmem => hs q.symbol hmem rfl⟩
  refine ⟨hterms, fun h => ⟨fun a ha => ?_, fun u hu => ?_⟩, ?_⟩
  · exact (Instance.isPlainTerm_iff.1 (h a (mem_parts.2 (.inr ha)))).1
  · exact (Instance.isPlainTerm_iff.1 (h u hu)).2
  · rintro ⟨hargs, hnone⟩ u hu
    refine Instance.isPlainTerm_iff.2 ⟨?_, hnone u hu⟩
    exact (mem_parts.1 hu).elim (hterms u) (hargs u)

/-- A script with a variable for a truth value, in a side condition and in an argument. -/
def truthValueText : String :=
  "(declare-fun P(Int)Bool)(assert(forall((x Int)(b Bool))(=>(and b(P x))(P(ite b x 0)))))"

/-- The clause of the script is Horn. -/
theorem isPlainTerm_iff_of_load_truthValue : ∃ inst,
    ((load "" truthValueText : Act Unit Instance).exec ()).1 = .ok inst ∧
    ∃ c ∈ inst.clauses, (∀ t ∈ c.parts, inst.IsPlainTerm t) ∧
      (∀ t ∈ c.terms, inst.Passes c.vars t) ∧
      ((∀ t ∈ c.parts, inst.IsPlainTerm t) ↔
        (∀ a ∈ arguments c, inst.Passes c.vars a) ∧
          ∀ t ∈ c.parts, ¬inst.Coincides c.vars t) := by
  have hread : (Smt.Script.assertions? truthValueText).map (fun ts =>
      (ofAssertions "" ts).toOption.map fun inst => decide (∃ c ∈ inst.clauses,
        (∀ a ∈ arguments c, inst.Passes c.vars a) ∧
          ∀ t ∈ c.parts, ¬inst.Coincides c.vars t)) = some (some true) := by decide +kernel
  obtain ⟨ts, hts, haccepted⟩ := Option.map_eq_some_iff.1 hread
  obtain ⟨inst, hinst, hclause⟩ := exists_load (s := ()) hts haccepted
  rw [decide_eq_true_eq] at hclause
  obtain ⟨c, hc, hright⟩ := hclause
  have hiff := isPlainTerm_iff_of_load Smt.Script.isScoped_assertions? hinst hc
  exact ⟨inst, hinst, c, hc, hiff.2.2 hright, hiff⟩

/-- A script that applies a predicate in an argument. -/
def nestedText : String :=
  "(declare-fun P(Int)Bool)(assert(forall((x Int))(=>(P(ite(P x)1 2))false)))"

/-- A script with a variable that has the name of a predicate. -/
def coincidingText : String :=
  "(declare-fun q()Bool)(assert q)(assert(forall((q Bool))q))"

/-- **Not all loaded clauses are Horn.** A predicate in an argument is accepted, and so is a side
condition that mentions a predicate, if a variable has its name. -/
theorem load_accepts_hidden :
    (∃ inst, ((load "" nestedText : Act Unit Instance).exec ()).1 = .ok inst ∧
      ∃ c ∈ inst.clauses, ∃ a ∈ arguments c, ¬inst.IsPlainTerm a) ∧
    ∃ inst, ((load "" coincidingText : Act Unit Instance).exec ()).1 = .ok inst ∧
      ∃ c ∈ inst.clauses, ∃ t ∈ c.terms, ¬inst.IsPlainTerm t := by
  constructor
  · have hread : (Smt.Script.assertions? nestedText).map (fun ts =>
        (ofAssertions "" ts).toOption.map fun inst =>
          decide (∃ c ∈ inst.clauses, ∃ a ∈ arguments c, ¬inst.IsPlainTerm a)) =
            some (some true) := by decide +kernel
    obtain ⟨ts, hts, haccepted⟩ := Option.map_eq_some_iff.1 hread
    obtain ⟨inst, hinst, hclause⟩ := exists_load (s := ()) hts haccepted
    exact ⟨inst, hinst, of_decide_eq_true hclause⟩
  · have hread : (Smt.Script.assertions? coincidingText).map (fun ts =>
        (ofAssertions "" ts).toOption.map fun inst =>
          decide (∃ c ∈ inst.clauses, ∃ t ∈ c.terms, ¬inst.IsPlainTerm t)) =
            some (some true) := by decide +kernel
    obtain ⟨ts, hts, haccepted⟩ := Option.map_eq_some_iff.1 hread
    obtain ⟨inst, hinst, hclause⟩ := exists_load (s := ()) hts haccepted
    exact ⟨inst, hinst, of_decide_eq_true hclause⟩

end Problem
end Horn
