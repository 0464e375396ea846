import Horn.Proofs.Problem.Loading
import Horn.Proofs.Semantics.Engine

/-!
# Loading keeps the meaning

A clause that an assertion states is true exactly if the matrix of the assertion is
(`StatesParts.satClause_iff`), and without capture the assertion is true exactly if its matrix is
for all values of the variables (`sat_iff_matrix`). So a structure in which all assertions of a
script are true is one in which all clauses of the loaded instance are true, for all values of their
variables, and conversely (`sat_iff_satClause_of_load`).

Capture does change the meaning: `load_captures` has two binders of one name, and an inner formula
that refers to the outer one by a local name.
-/

namespace Horn

variable {U : Universe} {preds : List Predicate}

namespace Problem

open Smt

/-! ### Parts of an assertion are scoped -/

theorem prenex_scoped {t : Term} {ctx : List TermSort} (h : t.Scoped ctx) :
    (prenex t).2.Scoped ((prenex t).1.reverse.map (·.sort) ++ ctx) := by
  fun_induction prenex t generalizing ctx with
  | case1 xs body ys matrix heq ih =>
    rw [Term.Scoped] at h
    have hbody := ih h
    rw [heq] at hbody
    rwa [List.reverse_append, List.map_append, List.append_assoc]
  | case2 t _ => exact h

theorem instantiate_scoped {xs : List Constant} {body : Term}
    (h : body.Scoped (xs.reverse.map (·.sort))) : (body.instantiate xs).Scoped [] := by
  have hconst : ∀ t ∈ xs.reverse.map Term.const, t.Scoped [] := by
    intro t ht
    obtain ⟨x, -, rfl⟩ := List.mem_map.1 ht
    exact Term.scoped_fn.2 ⟨rfl, List.forall_mem_nil _⟩
  have hbody : body.Scoped ([] ++ ((xs.reverse.map Term.const).map Term.sort ++ [])) := by
    rw [List.nil_append, List.append_nil, List.map_map]
    exact h
  exact Term.Scoped.instantiateAt hconst [] hbody

theorem matrix_scoped {t m : Term} {xs : List Constant} (h : matrix t = .ok (xs, m))
    (ht : t.Scoped []) : m.Scoped [] := by
  obtain ⟨rfl, rfl⟩ := matrix_ok h
  have hbody := prenex_scoped ht
  rw [List.append_nil] at hbody
  exact instantiate_scoped hbody

theorem sides_scoped {m : Term} {ctx : List TermSort} (h : m.Scoped ctx) :
    (sides m).1.Scoped ctx ∧ (sides m).2.Scoped ctx := by
  unfold sides
  split
  · rw [Term.scoped_op, List.forall_mem_cons, List.forall_mem_singleton] at h
    exact h
  · rw [Term.scoped_op, List.forall_mem_singleton] at h
    exact ⟨h, trivial⟩
  · exact ⟨trivial, h⟩

mutual

theorem conjuncts_scoped {ctx : List TermSort} : ∀ {t : Term}, t.Scoped ctx →
    ∀ u ∈ conjuncts t, u.Scoped ctx
  | t, h => by
    unfold conjuncts
    split
    · exact List.forall_mem_nil _
    · rw [Term.Scoped] at h
      exact conjunctsList_scoped h
    · rwa [List.forall_mem_singleton]

theorem conjunctsList_scoped {ctx : List TermSort} : ∀ {ts : List Term}, Term.ScopedList ctx ts →
    ∀ u ∈ conjunctsList ts, u.Scoped ctx
  | [], _ => List.forall_mem_nil _
  | t :: ts, h => by
    rw [conjunctsList, List.forall_mem_append]
    exact ⟨conjuncts_scoped h.1, conjunctsList_scoped h.2⟩

end

/-! ### Truth of the parts -/

mutual

/-- **Flattening.** A formula is true if all its conjuncts are. -/
theorem sat_conjuncts (M : Structure U) : ∀ t : Term, M.Sat t ↔ ∀ u ∈ conjuncts t, M.Sat u
  | t => by
    unfold conjuncts
    split
    · refine iff_of_true ?_ (List.forall_mem_nil _)
      rw [Structure.Sat, Structure.eval, Literal.denote, Element.holds_truth]
    · next ts => rw [M.sat_and, sat_conjunctsList M ts]
    · rw [List.forall_mem_singleton]

theorem sat_conjunctsList (M : Structure U) : ∀ ts : List Term,
    (∀ t ∈ ts, M.Sat t) ↔ ∀ u ∈ conjunctsList ts, M.Sat u
  | [] => Iff.rfl
  | t :: ts => by
    rw [conjunctsList, List.forall_mem_cons, List.forall_mem_append, sat_conjuncts M t,
      sat_conjunctsList M ts]

end

/-- **The three shapes.** A matrix is true if its body implies its head. -/
theorem sat_sides (M : Structure U) (m : Term) :
    M.Sat m ↔ (M.Sat (sides m).1 → M.Sat (sides m).2) := by
  unfold sides
  split
  · next body head =>
    rw [Structure.Sat, Structure.eval, Structure.evalList_eq_map, Op.denote, Element.holds_truth]
    rfl
  · next body =>
    exact (M.sat_neg body).trans ⟨fun h hbody => absurd hbody h, fun h hbody =>
      M.not_sat_of_isFalsum rfl (h hbody)⟩
  · exact ⟨fun h _ => h, fun h => h (M.sat_of_isVerum rfl)⟩

/-- Whether a part of a clause holds. -/
def Part.Holds (M : Structure U) (preds : List Predicate) : Part → Prop
  | .app p args => M.Applies preds (p, args)
  | .condition t => M.Sat t

/-- What a formula has been classified as is as true as the formula. Its arguments are of the sorts
of the signature, so they are taken as they are. -/
theorem Classified.holds_iff {vars : List Constant} {t : Term} {part : Part}
    (h : Classified vars preds t part) (ht : t.Scoped []) (M : Structure U) :
    part.Holds M preds ↔ M.Sat t := by
  cases h with
  | condition _ => exact Iff.rfl
  | app _ hq hs =>
    refine M.applies_iff_sat preds hq ?_
    rw [hs, Symbol.app?, Term.castAll?_of_sorts (Term.scoped_fn.1 ht).1]
    rfl

theorem forall_holds_iff {vars : List Constant} {ts : List Term} {parts : List Part}
    (h : List.Forall₂ (Classified vars preds) ts parts) (hts : ∀ t ∈ ts, t.Scoped [])
    (M : Structure U) : (∀ part ∈ parts, part.Holds M preds) ↔ ∀ t ∈ ts, M.Sat t := by
  induction h with
  | nil => exact iff_of_true (List.forall_mem_nil _) (List.forall_mem_nil _)
  | cons ht _ ih =>
    rw [List.forall_mem_cons] at hts
    rw [List.forall_mem_cons, List.forall_mem_cons, ht.holds_iff hts.1 M, ih hts.2]

/-- **One clause.** A clause that an assertion states is as true as the matrix of the assertion. -/
theorem StatesParts.satClause_iff {c : Clause} {m : Term} {parts : List Part} {extra : List Term}
    (h : StatesParts preds c m parts extra) (hm : m.Scoped []) (M : Structure U) :
    M.SatClause preds c ↔ M.Sat m := by
  obtain ⟨hscoped₁, hscoped₂⟩ := sides_scoped hm
  -- The parts of the clause hold if the body of the matrix does.
  have hparts : (∀ part ∈ parts, part.Holds M preds) ↔ M.Sat (sides m).1 := by
    rw [forall_holds_iff h.body (conjuncts_scoped hscoped₁) M, ← sat_conjuncts]
  have hbody : M.Body preds c ↔ M.Sat (sides m).1 ∧ ∀ t ∈ extra, M.Sat t := by
    rw [← hparts]
    constructor
    · rintro ⟨hterms, happs⟩
      rw [h.terms, List.forall_mem_append] at hterms
      refine ⟨fun part hpart => ?_, hterms.2⟩
      cases part with
      | app p args => exact happs (p, args) ((h.apps (p, args)).2 hpart)
      | condition t => exact hterms.1 t (mem_conditions.2 hpart)
    · rintro ⟨hall, hextra⟩
      refine ⟨?_, fun a ha => hall _ ((h.apps a).1 ha)⟩
      rw [h.terms, List.forall_mem_append]
      exact ⟨fun t ht => hall _ (mem_conditions.1 ht), hextra⟩
  rw [Structure.SatClause, hbody, sat_sides M m]
  have hhead := h.head
  generalize c.conclusion = conclusion at hhead ⊢
  cases hhead with
  | nothing hfalsum =>
    have hno := M.not_sat_of_isFalsum hfalsum
    simp [hno]
  | app happ =>
    rw [← happ.holds_iff hscoped₂ M]
    simp [Part.Holds]
  | condition _ =>
    -- The negated head is one condition more.
    simp [M.sat_neg]

/-- **One assertion.** Without capture an assertion is true if the clause that it states is, for all
values of its variables. -/
theorem States.sat_iff {t : Term} {c : Clause} (h : States preds t c) (ht : t.Scoped [])
    (hcapture : CaptureFree t) (M : Structure U) :
    M.Sat t ↔ ∀ vs : List (Element U), vs.map (·.sort) = c.vars.map (·.sort) →
      (M.assign (c.vars.zip vs)).SatClause preds c := by
  obtain ⟨m, parts, extra, hm, hparts⟩ := h
  rw [sat_iff_matrix M hm hcapture]
  have hscoped := matrix_scoped hm ht
  exact forall_congr' fun vs => imp_congr_right fun _ => (hparts.satClause_iff hscoped _).symm

/-- **Loading keeps the meaning.** In every structure all assertions of a script are true if and
only if all clauses of the loaded instance are, for all values of their variables, provided that
nothing is captured when the variables of an assertion become constants. This is so however scripts
are read. -/
theorem sat_iff_satClause_of_load {σ : Type} {read : Reader} (hread : read.IsScoped)
    {name text : String} {s : σ} {inst : Instance} {ts : List Term}
    (hload : ((load name text read : Act σ Instance).exec s).1 = .ok inst)
    (hts : read text = some ts) (hcapture : ∀ t ∈ ts, CaptureFree t) (M : Structure U) :
    (∀ t ∈ ts, M.Sat t) ↔
      ∀ c ∈ inst.clauses, ∀ vs : List (Element U), vs.map (·.sort) = c.vars.map (·.sort) →
        (M.assign (c.vars.zip vs)).SatClause inst.preds c := by
  obtain ⟨ts', hts', hinst⟩ := load_ok hload
  obtain rfl : ts = ts' := Option.some.inj (hts.symm.trans hts')
  have hscoped := hread hts
  obtain ⟨hleft, hright⟩ := exists_of_forall₂ (ofAssertions_ok hinst)
  constructor
  · intro h c hc
    obtain ⟨t, ht, hstates⟩ := hright c hc
    exact (hstates.sat_iff (hscoped t ht) (hcapture t ht) M).1 (h t ht)
  · intro h t ht
    obtain ⟨c, hc, hstates⟩ := hleft t ht
    exact (hstates.sat_iff (hscoped t ht) (hcapture t ht) M).2 (h c hc)

/-- A script with a free constant, a local name, and a shadowed variable that is not used. -/
def shadowedText : String :=
  "(declare-fun P(Int Int)Bool)(declare-const n Int)(assert(forall((x Int))" ++
  "(forall((y Int)(x Int))(let((z(+ x n)))(=>(and(P x y)(> y n))(P y z))))))"

/-- The script is accepted, and nothing in it is captured. -/
theorem sat_iff_satClause_of_load_shadowed : ∃ (ts : List Term) (inst : Instance),
    ((load "" shadowedText : Act Unit Instance).exec ()).1 = .ok inst ∧
    Script.assertions? shadowedText = some ts ∧ (∀ t ∈ ts, CaptureFree t) ∧
    ∀ (U : Universe) (M : Structure U), (∀ t ∈ ts, M.Sat t) ↔
      ∀ c ∈ inst.clauses, ∀ vs : List (Element U), vs.map (·.sort) = c.vars.map (·.sort) →
        (M.assign (c.vars.zip vs)).SatClause inst.preds c := by
  have hread : (Script.assertions? shadowedText).map (fun ts =>
      (decide (∀ t ∈ ts, CaptureFree t), (ofAssertions "" ts).toOption.map fun _ => ())) =
        some (true, some ()) := by decide +kernel
  obtain ⟨ts, hts, heq⟩ := Option.map_eq_some_iff.1 hread
  obtain ⟨hcapture, haccepted⟩ := Prod.mk.inj heq
  rw [decide_eq_true_eq] at hcapture
  obtain ⟨inst, hinst, -⟩ := exists_load (s := ()) hts haccepted
  exact ⟨ts, inst, hinst, hts, hcapture, fun U M =>
    sat_iff_satClause_of_load Script.isScoped_assertions? hinst hts hcapture M⟩

/-! ### Capture -/

/-- A script in which a local name for the outer variable is used behind a binder of its name. -/
def capturingText : String :=
  "(declare-fun P(Int Int)Bool)(assert(forall((x Int))(let((y x))(forall((x Int))(P x y)))))"

/-- **Capture changes the meaning.** The script asserts that `P` holds of all pairs, and the loaded
clause only says that it holds of all pairs of equal numbers. -/
theorem load_captures : ∃ (ts : List Term) (inst : Instance),
    ((load "" capturingText : Act Unit Instance).exec ()).1 = .ok inst ∧
    Script.assertions? capturingText = some ts ∧
    ∃ (U : Universe) (M : Structure U), ¬((∀ t ∈ ts, M.Sat t) ↔
      ∀ c ∈ inst.clauses, ∀ vs : List (Element U), vs.map (·.sort) = c.vars.map (·.sort) →
        (M.assign (c.vars.zip vs)).SatClause inst.preds c) := by
  let x : Constant := ⟨"x", .int⟩
  let P : Symbol := ⟨"P", [.int, .int], .bool⟩
  let t : Term := .quant .all [x] (.quant .all [x] (.fn P [.bound 0 .int, .bound 1 .int]))
  have hts : Script.assertions? capturingText = some [t] := by decide +kernel
  have hload : (ofAssertions "" [t]).toOption.map (fun inst =>
      (inst.preds.map (·.symbol), inst.clauses.map (·.conclusion))) =
        some ([P], [some (0, [.const x, .const x])]) := by decide
  obtain ⟨inst, hinst, heq⟩ := exists_load (s := ()) hts hload
  obtain ⟨hpreds, hclauses⟩ := Prod.mk.inj heq
  -- `P` is read as equality.
  let M : Structure default := (default : Structure default).relate fun f =>
    if f = P then some (fun es => es[0]? = es[1]?) else none
  have hP : ∀ (N : Structure default), N.symbol P = M.symbol P →
      ∀ (env : List (Element default)) (a b : Term),
        (N.eval env (.fn P [a, b])).Holds ↔ N.eval env a = N.eval env b := by
    intro N hN env a b
    have hsymbol : M.symbol P [N.eval env a, N.eval env b] =
        (Element.truth (some (N.eval env a) = some (N.eval env b)) : Element default).get .bool :=
      rfl
    rw [Structure.eval, Structure.evalList_eq_map, List.map_cons, List.map_cons, List.map_nil, hN,
      hsymbol, Element.get_truth, Option.some.injEq]
    exact iff_of_eq (Element.get_mk (s := .bool) _)
  refine ⟨[t], inst, hinst, hts, default, M, fun hiff => ?_⟩
  have hclause : ∀ c ∈ inst.clauses, ∀ vs : List (Element default),
      vs.map (·.sort) = c.vars.map (·.sort) →
        (M.assign (c.vars.zip vs)).SatClause inst.preds c := by
    intro c hc vs _ _
    have hconclusion : c.conclusion = some (0, [.const x, .const x]) :=
      List.mem_singleton.1 (hclauses ▸ List.mem_map_of_mem hc)
    obtain ⟨q, hq, hqs⟩ : ∃ q, inst.preds[0]? = some q ∧ q.symbol = P := by
      have hfirst : (inst.preds.map (·.symbol))[0]? = some P := by
        rw [hpreds]
        rfl
      rwa [List.getElem?_map, Option.map_eq_some_iff] at hfirst
    refine ⟨_, hconclusion, ?_⟩
    have happ : q.symbol.app? [.const x, .const x] = some (.fn P [.const x, .const x]) := by
      rw [hqs]
      rfl
    rw [Structure.applies_iff_sat _ _ hq happ]
    refine (hP _ ?_ [] _ _).2 rfl
    -- Only constants have got values.
    exact (M.agree_assign _).symbol P fun e _ heP => nomatch congrArg Symbol.domain heP
  -- The numbers 0 and 1 are a pair.
  have hpairs := (holds_prenex M t []).1 (hiff.2 hclause t (List.mem_singleton_self t))
    [⟨.int, (0 : ℤ)⟩, ⟨.int, (1 : ℤ)⟩] rfl
  have heq := (hP M rfl _ _ _).1 hpairs
  exact absurd (Element.int_inj.1 heq) (by decide)

end Problem
end Horn
