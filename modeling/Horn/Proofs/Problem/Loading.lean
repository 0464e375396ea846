import Horn.Proofs.Act
import Horn.Proofs.Instance.WellFormed
import Horn.Proofs.Problem.Prenex
import Horn.Proofs.Smt.Scoped

/-!
# What is loaded

A script that is accepted has one clause for each assertion, in their order, and each clause is what
its assertion states (`ofAssertions_ok`). `States preds t c` says that in terms of the assertion `t`
alone: the variables of `c` are those of its prefix, and the conjuncts and the head of its matrix
are the applications and the side conditions of `c`, one by one (`Classified`).

Predicates are added while the assertions are read. The table only grows at its end, so what has
been classified in an earlier table is classified in the same way in the last one
(`Classified.mono`); this is what makes a statement about the loaded instance out of the statements
about the tables in between.
-/

namespace Horn

variable {preds preds' : List Predicate}

namespace Problem

/-! ### Classification -/

/-- What a conjunct or a head is in a clause with some variables: the application of a predicate of
the table, or a side condition in which nothing is hidden. -/
inductive Classified (vars : List Constant) (preds : List Predicate) : Term → Part → Prop
  | app {f : Symbol} {args : List Term} {p : Nat} {q : Predicate} :
      isPredicate vars f args = true → preds[p]? = some q → q.symbol = f →
        Classified vars preds (.fn f args) (.app p args)
  | condition {t : Term} : hidden vars t = none → Classified vars preds t (.condition t)

theorem Classified.mono {vars : List Constant} {t : Term} {part : Part}
    (h : Classified vars preds t part) (hp : preds <+: preds') :
    Classified vars preds' t part := by
  cases h with
  | app hf hq hs =>
    obtain ⟨l, rfl⟩ := hp
    refine .app hf ?_ hs
    rw [List.getElem?_append_left (List.getElem?_eq_some_iff.1 hq).1, hq]
  | condition ht => exact .condition ht

/-- A side condition is the formula itself. -/
theorem Classified.eq_of_condition {vars : List Constant} {t u : Term}
    (h : Classified vars preds t (.condition u)) : t = u := by
  cases h
  rfl

/-- The head of a clause: it is concluded, or it is a side condition once it is negated. -/
inductive Concludes (vars : List Constant) (preds : List Predicate) (head : Term) :
    List Term → Option (Nat × List Term) → Prop
  | nothing : head.isFalsum = true → Concludes vars preds head [] none
  | app {p : Nat} {args : List Term} :
      Classified vars preds head (.app p args) → Concludes vars preds head [] (some (p, args))
  | condition : Classified vars preds head (.condition head) →
      Concludes vars preds head [head.neg] none

theorem Concludes.mono {vars : List Constant} {head : Term} {extra : List Term}
    {conclusion : Option (Nat × List Term)} (h : Concludes vars preds head extra conclusion)
    (hp : preds <+: preds') : Concludes vars preds' head extra conclusion := by
  cases h with
  | nothing h => exact .nothing h
  | app h => exact .app (h.mono hp)
  | condition h => exact .condition (h.mono hp)

/-- The clause that an assertion states over a table of predicates. -/
structure StatesParts (preds : List Predicate) (c : Clause) (m : Term) (parts : List Part)
    (extra : List Term) : Prop where
  body : List.Forall₂ (Classified c.vars preds) (conjuncts (sides m).1) parts
  head : Concludes c.vars preds (sides m).2 extra c.conclusion
  terms : c.terms = conditions parts ++ extra
  apps : ∀ a : Nat × List Term, a ∈ c.apps ↔ Part.app a.1 a.2 ∈ parts

/-- An assertion states a clause over a table of predicates. -/
def States (preds : List Predicate) (t : Term) (c : Clause) : Prop :=
  ∃ m parts extra, matrix t = .ok (c.vars, m) ∧ StatesParts preds c m parts extra

theorem States.mono {t : Term} {c : Clause} (h : States preds t c) (hp : preds <+: preds') :
    States preds' t c := by
  obtain ⟨m, parts, extra, hm, h⟩ := h
  exact ⟨m, parts, extra, hm, h.body.imp fun _ _ hpart => hpart.mono hp, h.head.mono hp, h.terms,
    h.apps⟩

theorem mem_conditions {parts : List Part} {t : Term} :
    t ∈ conditions parts ↔ Part.condition t ∈ parts := by
  unfold conditions
  rw [List.mem_filterMap]
  constructor
  · rintro ⟨part, hpart, ht⟩
    cases part with
    | app p args => cases ht
    | condition u =>
      obtain rfl := Option.some.inj ht
      exact hpart
  · exact fun h => ⟨_, h, rfl⟩

theorem mem_apps {parts : List Part} {p : Nat} {args : List Term} :
    ((p : Int), args) ∈ apps parts ↔ Part.app p args ∈ parts := by
  unfold apps
  rw [List.mem_filterMap]
  constructor
  · rintro ⟨part, hpart, ha⟩
    cases part with
    | app p' args' =>
      obtain ⟨hp, rfl⟩ := Prod.mk.inj (Option.some.inj ha)
      obtain rfl := Int.ofNat.inj hp
      exact hpart
    | condition u => cases ha
  · exact fun h => ⟨_, h, rfl⟩

/-! ### Predicates -/

/-- An instance in which predicates may have been added, and nothing else. -/
structure Grows (inst inst' : Instance) : Prop where
  preds : inst.preds <+: inst'.preds
  clauses : inst'.clauses = inst.clauses

theorem Grows.refl (inst : Instance) : Grows inst inst := ⟨List.prefix_rfl, rfl⟩

theorem Grows.trans {inst inst' inst'' : Instance} (h : Grows inst inst')
    (h' : Grows inst' inst'') : Grows inst inst'' :=
  ⟨h.preds.trans h'.preds, h'.clauses.trans h.clauses⟩

variable {inst inst' : Instance} {vars : List Constant} {n : Nat}

/-- A new predicate has the name and the signature that it is made with. -/
theorem addPredicate_ok {name : String} {sorts : List TermSort}
    (h : inst.addPredicate name sorts none none = .ok inst') :
    ∃ q, inst' = inst.insertPredicate q ∧ q.symbol = ⟨name, sorts, .bool⟩ := by
  unfold Instance.addPredicate at h
  dsimp only at h
  split at h
  · cases h
  · obtain ⟨q, hq, h⟩ := bind_eq_ok.1 h
    obtain rfl := Except.ok.inj h
    refine ⟨q, rfl, ?_⟩
    obtain ⟨given, checked, -, -, rfl⟩ := Predicate.make_ok hq
    rfl

/-- The predicate of a symbol is in the table, perhaps as the last one. -/
theorem predicate_ok {f : Symbol} {p : Nat} (h : predicate inst f = .ok (inst', p))
    (hf : f.range = .bool) :
    Grows inst inst' ∧ ∃ q, inst'.preds[p]? = some q ∧ q.symbol = f := by
  unfold predicate at h
  split at h
  · next i hi =>
    obtain ⟨rfl, rfl⟩ := Prod.mk.inj (Except.ok.inj h)
    obtain ⟨hlt, hsymbol, -⟩ := List.findIdx?_eq_some_iff_getElem.1 hi
    rw [beq_iff_eq] at hsymbol
    exact ⟨.refl inst, _, List.getElem?_eq_getElem hlt, hsymbol⟩
  -- The symbol is new, and its predicate becomes the last one of the table.
  · cases hadd : inst.addPredicate f.name f.domain none none with
    | error e =>
      rw [hadd] at h
      cases h
    | ok inst₁ =>
      rw [hadd] at h
      obtain ⟨rfl, rfl⟩ := Prod.mk.inj (Except.ok.inj h)
      obtain ⟨q, rfl, hq⟩ := addPredicate_ok hadd
      refine ⟨⟨List.prefix_append _ _, rfl⟩, q, List.getElem?_concat_length, ?_⟩
      rw [hq, ← hf]

/-! ### Assertions -/

/-- Classifying adds at most a predicate, and answers with what the formula is. -/
theorem classify_ok {t : Term} {part : Part} (h : classify vars n inst t = .ok (inst', part)) :
    Grows inst inst' ∧ Classified vars inst'.preds t part := by
  -- Whatever is no application of a predicate has to pass the check of conditions.
  have hcondition : ∀ {inst' part},
      (do checkCondition vars n inst t; pure (inst, Part.condition t)) = Except.ok (inst', part) →
        Grows inst inst' ∧ Classified vars inst'.preds t part := by
    intro inst' part h
    obtain ⟨_, hcheck, h⟩ := bind_eq_ok.1 h
    obtain ⟨rfl, rfl⟩ := Prod.mk.inj (Except.ok.inj h)
    refine ⟨.refl inst, .condition ?_⟩
    unfold checkCondition at hcheck
    split at hcheck
    · assumption
    · cases hcheck
    · obtain ⟨_, -, hcheck⟩ := bind_eq_ok.1 hcheck
      cases hcheck
  unfold classify at h
  dsimp only at h
  split at h
  · next f args =>
    split at h
    · next hf =>
      obtain ⟨⟨inst₁, p⟩, hp, h⟩ := bind_eq_ok.1 h
      obtain ⟨rfl, rfl⟩ := Prod.mk.inj (Except.ok.inj h)
      have hrange : f.range = .bool := by
        unfold isPredicate at hf
        rw [Bool.and_eq_true, beq_iff_eq] at hf
        exact hf.1
      obtain ⟨hgrows, q, hq, hs⟩ := predicate_ok hp hrange
      exact ⟨hgrows, .app hf hq hs⟩
    · exact hcondition h
  · exact hcondition h

/-- Each formula of a list is classified, over the table that is reached in the end. -/
theorem classifyAll_ok {ts : List Term} {parts : List Part}
    (h : classifyAll vars n inst ts = .ok (inst', parts)) :
    Grows inst inst' ∧ List.Forall₂ (Classified vars inst'.preds) ts parts := by
  induction ts generalizing inst parts with
  | nil =>
    obtain ⟨rfl, rfl⟩ := Prod.mk.inj (Except.ok.inj h)
    exact ⟨.refl inst, .nil⟩
  | cons t ts ih =>
    obtain ⟨⟨inst₁, part⟩, hpart, h⟩ := bind_eq_ok.1 h
    obtain ⟨⟨inst₂, parts'⟩, hparts, h⟩ := bind_eq_ok.1 h
    obtain ⟨rfl, rfl⟩ := Prod.mk.inj (Except.ok.inj h)
    obtain ⟨hgrows, ht⟩ := classify_ok hpart
    obtain ⟨hgrows', hts⟩ := ih hparts
    exact ⟨hgrows.trans hgrows', .cons (ht.mono hgrows'.preds) hts⟩

/-- A clause that is added has the contents of its description. -/
theorem addClause_ok {spec : ClauseSpec} (h : inst.addClause spec = .ok inst') :
    ∃ c, inst' = inst.insertClause c ∧ c.vars = spec.vars ∧ c.terms = spec.terms ∧
      (∀ a : Nat × List Term, a ∈ c.apps ↔ ((a.1 : Int), a.2) ∈ spec.apps) ∧
      spec.conclusion = c.conclusion.map fun a => ((a.1 : Int), a.2) := by
  obtain ⟨as, conclusion, has, hconclusion, -, -, rfl⟩ := Instance.addClause_eq_ok.1 h
  refine ⟨_, rfl, rfl, rfl, fun a => ?_, hconclusion⟩
  change a ∈ Uses.flatten (Uses.group as) ↔ _
  rw [Uses.mem_flatten_group, has, List.mem_map]
  constructor
  · exact fun ha => ⟨a, ha, rfl⟩
  · rintro ⟨b, hb, heq⟩
    obtain ⟨hp, hargs⟩ := Prod.mk.inj heq
    obtain rfl : b = a := Prod.ext (Int.ofNat.inj hp) hargs
    exact hb

/-- A clause that is put together from what the formulas of an assertion have been classified as. -/
theorem addClause_states {t m : Term} {parts : List Part} {extra : List Term}
    (conclusion : Option (Nat × List Term))
    (h : inst.addClause ⟨vars, conditions parts ++ extra, apps parts,
      conclusion.map fun a => ((a.1 : Int), a.2), false, true⟩ = .ok inst')
    (hm : matrix t = .ok (vars, m))
    (hbody : List.Forall₂ (Classified vars inst.preds) (conjuncts (sides m).1) parts)
    (hhead : Concludes vars inst.preds (sides m).2 extra conclusion) :
    ∃ c, inst'.clauses = inst.clauses ++ [c] ∧ inst'.preds = inst.preds ∧
      States inst.preds t c := by
  obtain ⟨c, rfl, hvars, hterms, happs, hconclusion⟩ := addClause_ok h
  have hinj : Function.Injective fun a : Nat × List Term => ((a.1 : Int), a.2) := by
    rintro ⟨p, args⟩ ⟨p', args'⟩ heq
    obtain ⟨hp, hargs⟩ := Prod.mk.inj heq
    exact Prod.ext (Int.ofNat.inj hp) hargs
  obtain rfl : c.vars = vars := hvars
  obtain rfl : conclusion = c.conclusion := Option.map_injective hinj hconclusion
  exact ⟨c, rfl, rfl, m, parts, extra, hm, hbody, hhead, hterms, fun a => (happs a).trans mem_apps⟩

/-- **One assertion.** An assertion that is accepted adds the clause that it states. -/
theorem addAssertion_ok {t : Term} (h : addAssertion inst n t = .ok inst') :
    ∃ c, inst'.clauses = inst.clauses ++ [c] ∧ inst.preds <+: inst'.preds ∧
      States inst'.preds t c := by
  unfold addAssertion at h
  obtain ⟨⟨vars, m⟩, hm, h⟩ := bind_eq_ok.1 h
  dsimp only at h
  obtain ⟨⟨inst₁, parts⟩, hparts, h⟩ := bind_eq_ok.1 h
  obtain ⟨hgrows, hbody⟩ := classifyAll_ok hparts
  dsimp only at h
  split at h
  · next hfalsum =>
    rw [← List.append_nil (conditions parts)] at h
    obtain ⟨c, hclauses, hpreds, hstates⟩ :=
      addClause_states none h hm hbody (.nothing hfalsum)
    rw [hclauses, hpreds, hgrows.clauses]
    exact ⟨c, rfl, hgrows.preds, hstates⟩
  · obtain ⟨⟨inst₂, part⟩, hpart, h⟩ := bind_eq_ok.1 h
    obtain ⟨hgrows', hhead⟩ := classify_ok hpart
    have hbody' := hbody.imp fun _ _ hu => hu.mono hgrows'.preds
    have hboth := hgrows.trans hgrows'
    cases part with
    | app p args =>
      dsimp only at h
      rw [← List.append_nil (conditions parts)] at h
      obtain ⟨c, hclauses, hpreds, hstates⟩ :=
        addClause_states (some (p, args)) h hm hbody' (.app hhead)
      rw [hclauses, hpreds, hboth.clauses]
      exact ⟨c, rfl, hboth.preds, hstates⟩
    | condition u =>
      -- What is classified as a side condition is the head itself.
      obtain rfl := hhead.eq_of_condition
      obtain ⟨c, hclauses, hpreds, hstates⟩ :=
        addClause_states none h hm hbody' (.condition hhead)
      rw [hclauses, hpreds, hboth.clauses]
      exact ⟨c, rfl, hboth.preds, hstates⟩

/-- **A list of assertions** adds the clauses that they state, over the table of predicates that is
reached in the end. -/
theorem ofAssertions_ok {name : String} {ts : List Term}
    (h : ofAssertions name ts = .ok inst) :
    List.Forall₂ (States inst.preds) ts inst.clauses := by
  -- Generalised over the assertions that have been read already.
  have hrun : ∀ (ts done : List Term) (k : Nat) (inst inst' : Instance),
      List.Forall₂ (States inst.preds) done inst.clauses →
      (ts.zipIdx k).foldlM (fun inst b => addAssertion inst b.2 b.1) inst = Except.ok inst' →
        List.Forall₂ (States inst'.preds) (done ++ ts) inst'.clauses := by
    intro ts
    induction ts with
    | nil =>
      intro done k inst inst' hdone h
      obtain rfl := Except.ok.inj h
      rwa [List.append_nil]
    | cons t ts ih =>
      intro done k inst inst' hdone h
      rw [List.zipIdx_cons, List.foldlM_cons] at h
      obtain ⟨inst₁, ht, h⟩ := bind_eq_ok.1 h
      obtain ⟨c, hclauses, hpreds, hstates⟩ := addAssertion_ok ht
      have hdone' : List.Forall₂ (States inst₁.preds) (done ++ [t]) inst₁.clauses := by
        rw [hclauses]
        exact List.rel_append (hdone.imp fun _ _ hu => hu.mono hpreds) (.cons hstates .nil)
      have hrest := ih (done ++ [t]) (k + 1) inst₁ inst' hdone' h
      rwa [List.append_assoc] at hrest
  exact hrun ts [] 0 _ inst .nil h

/-! ### Scripts -/

/-- Noting the size of a problem does not change it. -/
theorem exec_load {σ : Type} (name text : String) (read : Smt.Reader) (s : σ) :
    ((load name text read : Act σ Instance).exec s).1 = ofScript name text read := by
  rw [Act.exec_eq]
  unfold load
  rw [Act.runFrom_bind, Act.runFrom_ofExcept]
  cases ofScript name text read <;> rfl

/-- An instance is loaded from a text if it is described by what the text asserts. -/
theorem load_ok {σ : Type} {name text : String} {read : Smt.Reader} {s : σ}
    (h : ((load name text read : Act σ Instance).exec s).1 = .ok inst) :
    ∃ ts, read text = some ts ∧ ofAssertions name ts = .ok inst := by
  rw [exec_load] at h
  unfold ofScript at h
  split at h
  · cases h
  · next ts hts => exact ⟨ts, hts, h⟩

/-- What the assertions of a text describe is loaded. -/
theorem exists_load {σ α : Type} {name text : String} {read : Smt.Reader} {s : σ}
    {ts : List Term} (hts : read text = some ts) {f : Instance → α} {a : α}
    (h : (ofAssertions name ts).toOption.map f = some a) :
    ∃ inst, ((load name text read : Act σ Instance).exec s).1 = .ok inst ∧ f inst = a := by
  obtain ⟨inst, hinst, hf⟩ := Option.map_eq_some_iff.1 h
  refine ⟨inst, ?_, hf⟩
  rw [exec_load, ofScript, hts]
  dsimp only
  cases hs : ofAssertions name ts with
  | error e =>
    rw [hs] at hinst
    cases hinst
  | ok inst' =>
    rw [hs] at hinst
    exact congrArg Except.ok (Option.some.inj hinst)

end Problem
end Horn
