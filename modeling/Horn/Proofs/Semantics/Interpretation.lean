import Horn.Instance.Basic
import Horn.Proofs.Semantics.Sorting

/-!
# Interpretations of the predicates

An `Interpretation` gives every predicate of a table a relation, in every structure. What it says
must not depend on the values of the constants, nor on what the structure itself makes of the
predicates: it is a meaning of the predicates alone (`Interpretation.congr`).

A structure *reads* an interpretation (`Structure.Reads`) if its undefined predicates are as the
interpretation says, and its defined predicates are as their definitions say. An interpretation
satisfies a clause if the clause is true in all structures that read it
(`Interpretation.Satisfies`); since these structures differ in the values of the constants, all
constants of a clause are read as universally quantified.

`Models preds clauses fragments` says that conjunctions of fragments, one list for each undefined
predicate, are an interpretation that satisfies all clauses.

`Structure.obeying` is the tool for comparing interpretations: it changes the undefined predicates
of a structure to what an interpretation says, and nothing else.
-/

namespace Horn

/-- Whether the elements are of the sorts of a signature. -/
def Fits {U : Universe} (sorts : List TermSort) (es : List (Element U)) : Prop :=
  es.map (·.sort) = sorts

/-- Elements of a signature with one sort are one element of that sort. -/
theorem fits_singleton {U : Universe} {s : TermSort} {es : List (Element U)} :
    Fits [s] es ↔ ∃ e, es = [e] ∧ e.sort = s := List.map_eq_singleton_iff

namespace Structure

variable {U : Universe} (M : Structure U) (preds : List Predicate)

/-- Whether a predicate holds of some elements. -/
def Rel (q : Predicate) (es : List (Element U)) : Prop := M.symbol q.symbol es

/-- Whether an application of a predicate of the table is true. Its symbol has to accept the
arguments, which may stand for others of the right sorts. -/
def Applies (app : Nat × List Term) : Prop :=
  ∃ q t, preds[app.1]? = some q ∧ q.symbol.app? app.2 = some t ∧ M.Sat t

/-- An application is as true as the term that it stands for. -/
theorem applies_iff_sat {p : Nat} {q : Predicate} {as : List Term} {t : Term}
    (hp : preds[p]? = some q) (ht : q.symbol.app? as = some t) :
    M.Applies preds (p, as) ↔ M.Sat t := by
  constructor
  · rintro ⟨q', t', hq', ht', hsat⟩
    obtain rfl := Option.some.inj (hp.symm.trans hq')
    obtain rfl := Option.some.inj (ht.symm.trans ht')
    exact hsat
  · exact fun hsat => ⟨q, t, hp, ht, hsat⟩

/-- The symbol of a predicate, applied to arguments, is true if the predicate holds of them. -/
theorem sat_application (q : Predicate) (args : List Term) :
    M.Sat (.fn q.symbol args) ↔ M.Rel q (args.map (M.eval [])) := by
  rw [Sat, eval, evalList_eq_map]
  exact iff_of_eq (Element.get_mk _)

/-- An application is true if the predicate holds of its arguments at the sorts of the signature. -/
theorem applies_iff (app : Nat × List Term) :
    M.Applies preds app ↔ ∃ q args, preds[app.1]? = some q ∧
      Term.castAll? q.sorts app.2 = some args ∧ M.Rel q (args.map (M.eval [])) := by
  constructor
  · rintro ⟨q, t, hq, ht, hsat⟩
    -- The term is an application of the symbol, to arguments at the sorts of the signature.
    obtain ⟨args, rfl, hargs⟩ := Symbol.app?_spec ht
    exact ⟨q, args, hq, hargs, (M.sat_application q args).1 hsat⟩
  · rintro ⟨q, args, hq, hargs, hrel⟩
    exact ⟨q, .fn q.symbol args, hq, Symbol.app?_of_castAll? hargs,
      (M.sat_application q args).2 hrel⟩

/-- Whether all conditions on the left of a clause are true. -/
structure Body (c : Clause) : Prop where
  terms : ∀ t ∈ c.terms, M.Sat t
  apps : ∀ a ∈ c.apps, M.Applies preds a

/-- Whether a clause is true: its conditions imply its conclusion, and a clause without conclusion
has contradictory conditions. -/
def SatClause (c : Clause) : Prop := M.Body preds c → ∃ a ∈ c.conclusion, M.Applies preds a

/-- Two structures have the same functions: they may differ in the constants and in the predicates
of the table. -/
def SameFunctions (N : Structure U) : Prop :=
  Agree (fun f => f.domain ≠ [] ∧ ∀ q ∈ preds, q.symbol ≠ f) M N

end Structure

/-- A relation for each predicate of a table. It only depends on the functions of a structure. -/
structure Interpretation (preds : List Predicate) where
  rel : {U : Universe} → Structure U → Nat → List (Element U) → Prop
  congr : ∀ {U : Universe} (M N : Structure U), M.SameFunctions preds N → rel M = rel N

variable {preds : List Predicate}

/-- A structure in which the undefined predicates are as an interpretation says, and the defined
ones as their definitions say. -/
structure Structure.Reads {U : Universe} (M : Structure U) (J : Interpretation preds) : Prop where
  undefined : ∀ {p q es}, preds[p]? = some q → q.definition = none → Fits q.sorts es →
    (M.Rel q es ↔ J.rel M p es)
  defined : ∀ {q d es}, q ∈ preds → q.definition = some d → Fits q.sorts es →
    (M.Rel q es ↔ (M.assign (d.params.zip es)).Sat d.body)

/-- An interpretation satisfies a clause: for all values of its constants, the conditions of the
clause imply its conclusion. -/
def Interpretation.Satisfies (J : Interpretation preds) (c : Clause) : Prop :=
  ∀ (U : Universe) (M : Structure U), M.Reads J → M.SatClause preds c

/-- Some interpretation satisfies all clauses. -/
def Satisfiable (preds : List Predicate) (clauses : List Clause) : Prop :=
  ∃ J : Interpretation preds, ∀ c ∈ clauses, J.Satisfies c

/-- An interpretation gives each undefined predicate the conjunction of its fragments. -/
def Interpretation.Conjoins (J : Interpretation preds) (fragments : Nat → List Term) : Prop :=
  ∀ {U : Universe} (M : Structure U) {p q es}, preds[p]? = some q → q.definition = none →
    Fits q.sorts es → (J.rel M p es ↔ ∀ t ∈ fragments p, (M.assign (q.params.zip es)).Sat t)

/-- Conjunctions of fragments, as an interpretation of the undefined predicates, satisfy all
clauses. -/
def Models (preds : List Predicate) (clauses : List Clause) (fragments : Nat → List Term) : Prop :=
  ∃ J : Interpretation preds, J.Conjoins fragments ∧ ∀ c ∈ clauses, J.Satisfies c

/-- What has a model of fragments is satisfiable. -/
theorem Models.satisfiable {clauses : List Clause} {fragments : Nat → List Term}
    (h : Models preds clauses fragments) : Satisfiable preds clauses := by
  obtain ⟨J, -, hJ⟩ := h
  exact ⟨J, hJ⟩

namespace Structure.Reads

variable {U : Universe} {M : Structure U} {J : Interpretation preds}

/-- An application of an undefined predicate is true if the interpretation says so. -/
theorem applies_iff (hM : M.Reads J) {p : Nat} {q : Predicate} {as args : List Term}
    (hp : preds[p]? = some q) (hq : q.definition = none)
    (hargs : Term.castAll? q.sorts as = some args) (hfit : Fits q.sorts (args.map (M.eval []))) :
    M.Applies preds (p, as) ↔ J.rel M p (args.map (M.eval [])) := by
  rw [M.applies_iff_sat preds hp (Symbol.app?_of_castAll? hargs), M.sat_application,
    hM.undefined hp hq hfit]

/-- An application of a defined predicate is true if its definition is true of the arguments. -/
theorem applies_defined_iff (hM : M.Reads J) {p : Nat} {q : Predicate} {d : Definition}
    {as args : List Term} (hp : preds[p]? = some q) (hd : q.definition = some d)
    (hargs : Term.castAll? q.sorts as = some args) (hfit : Fits q.sorts (args.map (M.eval []))) :
    M.Applies preds (p, as) ↔ (M.assign (d.params.zip (args.map (M.eval [])))).Sat d.body := by
  rw [M.applies_iff_sat preds hp (Symbol.app?_of_castAll? hargs), M.sat_application,
    hM.defined (List.mem_of_getElem? hp) hd hfit]

/-- An application to a numeral, of a predicate of integers. -/
theorem applies_int_iff (hM : M.Reads J) {p : Nat} {q : Predicate} (hp : preds[p]? = some q)
    (hq : q.definition = none) (hs : q.sorts = [.int]) (n : Int) :
    M.Applies preds (p, [.int n]) ↔ J.rel M p [⟨.int, n⟩] := by
  have hvalue : [Term.int n].map (M.eval []) = [⟨.int, n⟩] := by
    simp [Term.int, eval, Literal.denote]
  rw [hM.applies_iff hp hq (by rw [hs]; rfl) (by rw [hvalue, hs]; rfl), hvalue]

end Structure.Reads

namespace Interpretation

/-- Relations that do not depend on the structure. -/
def ofRelations (preds : List Predicate)
    (R : {U : Universe} → Nat → List (Element U) → Prop) : Interpretation preds :=
  ⟨fun _ p es => R p es, fun _ _ _ => rfl⟩

/-- The interpretation in which every predicate holds of everything. -/
def full (preds : List Predicate) : Interpretation preds := ⟨fun _ _ _ => True, fun _ _ _ => rfl⟩

/-- The intersection of interpretations. -/
def inf {ι : Type} (J : ι → Interpretation preds) : Interpretation preds where
  rel M p es := ∀ i, (J i).rel M p es
  congr M N h := by
    funext p es
    simp only [(J _).congr M N h]

/-- The conjunction of two interpretations. -/
def meet (J K : Interpretation preds) : Interpretation preds :=
  inf fun b : Bool => bif b then J else K

theorem rel_meet {J K : Interpretation preds} {U : Universe} {M : Structure U} {p : Nat}
    {es : List (Element U)} : (J.meet K).rel M p es ↔ J.rel M p es ∧ K.rel M p es := by
  unfold meet inf
  simp only [Bool.forall_bool, cond_true, cond_false]
  exact and_comm

/-- One interpretation is smaller than another on the undefined predicates. -/
def Le (J K : Interpretation preds) : Prop :=
  ∀ {U : Universe} (M : Structure U) {p q es}, preds[p]? = some q → q.definition = none →
    Fits q.sorts es → J.rel M p es → K.rel M p es

/-- The interpretation without any fragment is the full one. -/
theorem full_conjoins : (full preds).Conjoins fun _ => [] := by
  intro U M p q es _ _ _
  simp [full]

/-- More fragments make a smaller interpretation. -/
theorem Conjoins.le {J K : Interpretation preds} {fs gs : Nat → List Term} (hJ : J.Conjoins fs)
    (hK : K.Conjoins gs)
    (h : ∀ {U : Universe} (M : Structure U) {p q}, preds[p]? = some q → q.definition = none →
      (∀ t ∈ fs p, M.Sat t) → ∀ t ∈ gs p, M.Sat t) : J.Le K := by
  intro U M p q es hp hq hes hrel
  rw [hK M hp hq hes]
  exact h _ hp hq ((hJ M hp hq hes).1 hrel)

end Interpretation

/-- A model without fragments is the full interpretation. -/
theorem models_nil_iff {clauses : List Clause} : Models preds clauses (fun _ => []) ↔
    ∀ c ∈ clauses, (Interpretation.full preds).Satisfies c := by
  constructor
  · rintro ⟨J, hJ, hsat⟩ c hc U M hM
    refine hsat c hc U M ⟨fun hp hq hes => ?_, hM.defined⟩
    rw [hM.undefined hp hq hes, hJ M hp hq hes]
    exact iff_of_true trivial fun t ht => absurd ht List.not_mem_nil
  · exact fun h => ⟨_, Interpretation.full_conjoins, h⟩

/-! ### Tables of predicates -/

/-- The names in a table of predicates are different. -/
def DistinctNames (preds : List Predicate) : Prop := (preds.map (·.name)).Nodup

instance (preds : List Predicate) : Decidable (DistinctNames preds) :=
  inferInstanceAs (Decidable (preds.map (·.name)).Nodup)

/-- Predicates of a table with different names have different symbols. -/
theorem DistinctNames.index_eq (h : DistinctNames preds) {p p' : Nat} {q q' : Predicate}
    (hp : preds[p]? = some q) (hp' : preds[p']? = some q') (hs : q.symbol = q'.symbol) :
    p = p' := by
  have hname : q.name = q'.name := congrArg Symbol.name hs
  have hlt : p < (preds.map (·.name)).length := by
    rw [List.length_map]
    exact (List.getElem?_eq_some_iff.1 hp).1
  refine (List.getElem?_inj hlt h).1 ?_
  rw [List.getElem?_map, List.getElem?_map, hp, hp', Option.map_some, Option.map_some, hname]

/-- The symbol of an undefined predicate of a table. -/
def IsUndefined (preds : List Predicate) (f : Symbol) : Prop :=
  ∃ q ∈ preds, q.definition = none ∧ q.symbol = f

instance (preds : List Predicate) (f : Symbol) : Decidable (IsUndefined preds f) :=
  inferInstanceAs (Decidable (∃ q ∈ preds, q.definition = none ∧ q.symbol = f))

/-- A defined predicate does not share its symbol with an undefined one. -/
theorem DistinctNames.not_isUndefined (h : DistinctNames preds) {q : Predicate} {d : Definition}
    (hq : q ∈ preds) (hqd : q.definition = some d) : ¬IsUndefined preds q.symbol := by
  rintro ⟨r, hr, hrd, hrs⟩
  obtain ⟨i, hi⟩ := List.getElem?_of_mem hq
  obtain ⟨j, hj⟩ := List.getElem?_of_mem hr
  obtain rfl := h.index_eq hi hj hrs.symm
  rw [hi, Option.some.injEq] at hj
  rw [hj, hrd] at hqd
  cases hqd

/-- No definition of the table mentions an undefined predicate. -/
def ClosedDefinitions (preds : List Predicate) : Prop :=
  ∀ q ∈ preds, ∀ d, q.definition = some d → ∀ f ∈ d.body.symbols, ¬IsUndefined preds f

namespace Structure

variable {U : Universe}

/-- A predicate that has got a relation holds where the relation does. -/
theorem rel_relate (M : Structure U) {R : Symbol → Option (List (Element U) → Prop)}
    {q : Predicate} {r : List (Element U) → Prop} (h : R q.symbol = some r)
    (es : List (Element U)) : (M.relate R).Rel q es ↔ r es := by
  unfold relate Rel
  simp only [h]
  exact iff_of_eq (Element.get_truth _)

/-- The structure in which one predicate has another relation. -/
noncomputable def redefine (M : Structure U) (q : Predicate) (r : List (Element U) → Prop) :
    Structure U :=
  M.relate fun f => if f = q.symbol then some r else none

/-- Only that predicate is changed. -/
theorem agree_redefine (M : Structure U) (q : Predicate) (r : List (Element U) → Prop) :
    Agree (· ≠ q.symbol) (M.redefine q r) M :=
  (agree_relate M _).mono fun _ hf => if_neg hf

theorem rel_redefine_self (M : Structure U) (q : Predicate) (r : List (Element U) → Prop)
    (es : List (Element U)) : (M.redefine q r).Rel q es ↔ r es := by
  apply rel_relate
  exact if_pos rfl

theorem rel_redefine_of_ne (M : Structure U) {q q' : Predicate} (h : q'.symbol ≠ q.symbol)
    (r : List (Element U) → Prop) (es : List (Element U)) :
    (M.redefine q r).Rel q' es ↔ M.Rel q' es :=
  iff_of_eq (congrFun ((agree_redefine M q r).symbol q'.symbol h) es)

/-- The structure in which the undefined predicates are as an interpretation says, where their
arguments are of the right sorts. -/
noncomputable def obeying (M : Structure U) (J : Interpretation preds) : Structure U :=
  M.relate fun f =>
    (preds.findIdx? fun q => q.definition.isNone && q.symbol == f).map fun p es =>
      (Fits f.domain es ∧ J.rel M p es) ∨
        (¬Fits f.domain es ∧ (⟨f.range, M.symbol f es⟩ : Element U).Holds)

/-- Only the undefined predicates are changed. -/
theorem agree_obeying (M : Structure U) (J : Interpretation preds) :
    Agree (fun f => ¬IsUndefined preds f) (M.obeying J) M := by
  refine (agree_relate M _).mono fun f hf => ?_
  rw [Option.map_eq_none_iff, List.findIdx?_eq_none_iff]
  intro q hq
  -- An entry that is found would be an undefined predicate with that symbol.
  by_contra hc
  rw [Bool.not_eq_false, Bool.and_eq_true, Option.isNone_iff_eq_none, beq_iff_eq] at hc
  exact hf ⟨q, hq, hc⟩

theorem sameFunctions_obeying (M : Structure U) (J : Interpretation preds) :
    M.SameFunctions preds (M.obeying J) := by
  refine (agree_obeying M J).symm.mono fun f hf hu => ?_
  obtain ⟨q, hq, -, hqf⟩ := hu
  exact hf.2 q hq hqf

/-- What the undefined predicates have become. -/
theorem rel_obeying (hn : DistinctNames preds) (M : Structure U) (J : Interpretation preds)
    {p : Nat} {q : Predicate} (hp : preds[p]? = some q) (hq : q.definition = none)
    (es : List (Element U)) :
    (M.obeying J).Rel q es ↔
      (Fits q.sorts es ∧ J.rel M p es) ∨ (¬Fits q.sorts es ∧ M.Rel q es) := by
  -- The symbol leads to this predicate and to no other one.
  have hfind : preds.findIdx? (fun r => r.definition.isNone && r.symbol == q.symbol) = some p := by
    rw [List.findIdx?_eq_some_iff_getElem]
    obtain ⟨hlt, hget⟩ := List.getElem?_eq_some_iff.1 hp
    refine ⟨hlt, by simp [hget, hq], fun j hj => ?_⟩
    intro hc
    simp only [Bool.and_eq_true, beq_iff_eq] at hc
    have hjp := hn.index_eq (List.getElem?_eq_getElem (hj.trans hlt)) hp hc.2
    omega
  unfold obeying
  apply rel_relate
  rw [hfind, Option.map_some]
  rfl

end Structure
end Horn
