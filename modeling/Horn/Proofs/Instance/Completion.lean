import Horn.Proofs.Instance.Resolve
import Horn.Proofs.Semantics.Composition

/-!
# Completing a candidate

`Instance.definitionsFrom` adds to a candidate the definitions that it leaves out, over the formal
parameters of their predicates instead of their own parameters (`Definition.formal`).

Nothing is lost by that: arguments in place of the formal parameters give the formula that the
definition gives at these arguments (`Definition.apply_formal`), whatever the two lists of
parameters and the arguments have in common. It is the composition of two substitutions, in which
each formal parameter only stands in for a parameter (`Term.substitute_substitute`).
-/

namespace Horn

/-! ### Parameters for parameters -/

namespace Term

/-- Different constants have the values they are paired with. -/
theorem lookupLast_zip_of_nodup {xs : List Constant} {as : List Term} (hxs : xs.Nodup)
    (hlength : xs.length = as.length) :
    List.Forall₂ (fun x a => lookupLast (xs.zip as) x = some a) xs as := by
  induction xs generalizing as with
  | nil =>
    obtain rfl := List.length_eq_zero_iff.1 hlength.symm
    exact .nil
  | cons x xs ih =>
    cases as with
    | nil => cases hlength
    | cons a as =>
      obtain ⟨hx, hxs⟩ := List.nodup_cons.1 hxs
      have hlength : xs.length = as.length := Nat.succ.inj hlength
      -- No later pair is about the first constant, so its own pair wins.
      have hlater : lookupLast (xs.zip as) x = none :=
        lookupLast_eq_none.2 (by rwa [List.map_fst_zip hlength.le])
      refine .cons ?_ ((ih hxs hlength).imp fun y b hy => ?_)
      · rw [List.zip_cons_cons, lookupLast_cons, hlater, Option.none_or, if_pos rfl]
      · rw [List.zip_cons_cons, lookupLast_cons, hy, Option.some_or]

/-- **Renaming first.** Terms may be put in for the constants `xs` by way of other constants, as
long as none of these occurs besides. -/
theorem substitute_substitute {xs ys : List Constant} {as : List Term} {t : Term} (hys : ys.Nodup)
    (hlength : ys.length = as.length) (hxs : xs.length ≤ ys.length)
    (hfree : ∀ y ∈ ys, y.symbol ∈ t.symbols → y ∈ xs) :
    substitute (ys.zip as) (substitute (xs.zip (ys.map const)) t) = substitute (xs.zip as) t := by
  -- The second substitution makes the arguments of the constants that the first one puts in.
  have hvalues : List.Forall₂ (fun u a => replace (lookupLast (ys.zip as)) 0 u = a)
      (ys.map const) as := by
    rw [List.forall₂_map_left_iff]
    refine (lookupLast_zip_of_nodup hys hlength).imp fun y a hy => ?_
    rw [const, replace_constant hy, lift_zero]
  unfold substitute
  rw [replace_replace]
  refine replace_congr t (fun x hx => ?_) 0
  have hrel := lookupLast_zip hvalues xs x
  unfold andThen
  generalize hσ : lookupLast (xs.zip (ys.map const)) x = u,
    hρ : lookupLast (xs.zip as) x = v at hrel
  cases hrel with
  | some h => exact congrArg some h
  | none =>
    -- A constant that is not renamed is none of the others, so it stays.
    rw [lookupLast_eq_none, List.map_fst_zip (by rwa [List.length_map])] at hσ
    dsimp only
    rw [lookupLast_eq_none, List.map_fst_zip hlength.le]
    exact fun hy => hσ (hfree x hy hx)

end Term

/-- Different positions have different numerals. -/
theorem Predicate.param_injective (name : String) :
    Function.Injective fun i : ℕ => name ++ "!" ++ toString i := by
  intro i j h
  have hdigits : Nat.toDigits 10 i = Nat.toDigits 10 j := by
    simpa using congrArg String.toList ((String.append_right_inj _).1 h)
  rw [← Nat.ofDigitChars_ten_toDigits (n := i), hdigits, Nat.ofDigitChars_ten_toDigits]

/-- The formal parameters of a predicate are different. -/
theorem Predicate.nodup_params (q : Predicate) : q.params.Nodup := by
  have hnames : q.params.map (·.name) =
      (List.range q.sorts.length).map fun i => q.name ++ "!" ++ toString i := by
    rw [params, List.map_map, List.range_eq_range', ← List.zipIdx_map_snd 0 q.sorts, List.map_map]
    rfl
  refine List.Nodup.of_map (·.name) ?_
  rw [hnames]
  exact List.nodup_range.map (param_injective q.name)

namespace Definition

variable {d : Definition} {q : Predicate}

/-- The body of a definition over the formal parameters of its predicate. -/
def formal (d : Definition) (q : Predicate) : Term :=
  Term.substitute (d.params.zip (q.params.map Term.const)) d.body

/-- The parameters of a definition have the sorts of the signature, and the body mentions no formal
parameter of the predicate that is not one of them. This holds if all free constants of the body are
parameters; what is more, the body may mention other predicates without arguments. -/
structure IsOverParams (d : Definition) (q : Predicate) : Prop where
  sorts : d.params.map (·.sort) = q.sorts
  free : ∀ y ∈ q.params, y.symbol ∈ d.body.symbols → y ∈ d.params

instance (d : Definition) (q : Predicate) : Decidable (d.IsOverParams q) :=
  decidable_of_iff (d.params.map (·.sort) = q.sorts ∧
    ∀ y ∈ q.params, y.symbol ∈ d.body.symbols → y ∈ d.params)
    ⟨fun h => ⟨h.1, h.2⟩, fun h => ⟨h.sorts, h.free⟩⟩

theorem apply_params (h : d.params.map (·.sort) = q.sorts) :
    d.apply (q.params.map Term.const) = .ok (d.formal q) := by
  refine apply_of_sorts ?_
  rw [h, ← q.sorts_params, List.map_map]
  rfl

/-- **The detour over the formal parameters** makes no difference. -/
theorem apply_formal (h : d.IsOverParams q) {args : List Term}
    (hargs : args.map Term.sort = q.sorts) :
    d.apply args = .ok (Term.substitute (q.params.zip args) (d.formal q)) := by
  have hlength : q.params.length = args.length := by
    rw [← List.length_map (·.sort), q.sorts_params, ← hargs, List.length_map]
  have hparams : d.params.length = q.params.length := by
    rw [← List.length_map (·.sort), h.sorts, ← q.sorts_params, List.length_map]
  rw [apply_of_sorts (hargs.trans h.sorts.symm), formal,
    Term.substitute_substitute q.nodup_params hlength hparams.le h.free]

end Definition

namespace Instance

variable {inst : Instance} {candidate defs : Definitions}

/-- All definitions are over their parameters, in the sense of `Definition.IsOverParams`. -/
def DefinitionsOverParams (inst : Instance) : Prop :=
  ∀ q ∈ inst.preds, ∀ d ∈ q.definition, d.IsOverParams q

instance (inst : Instance) : Decidable inst.DefinitionsOverParams :=
  inferInstanceAs (Decidable (∀ q ∈ inst.preds, ∀ d ∈ q.definition, d.IsOverParams q))

/-! ### The loop over the table of predicates -/

/-- What is added for a predicate. -/
def completion? (defs : Definitions) (e : Predicate × ℕ) : Option (Int × Term) :=
  if defs.has e.2 then none else e.1.definition.map fun d => ((e.2 : Int), d.formal e.1)

/-- The definitions that a candidate leaves out, over the formal parameters. -/
def completion (inst : Instance) (candidate : Definitions) : Definitions :=
  inst.preds.zipIdx.filterMap (completion? candidate)

/-- What is added for another predicate does not depend on what is added for one. -/
theorem completion?_append {i : ℕ} {u : Term} {e : Predicate × ℕ} (h : e.2 ≠ i) :
    completion? (defs ++ [((i : Int), u)]) e = completion? defs e := by
  have hhas : Definitions.has (defs ++ [((i : Int), u)]) e.2 = defs.has e.2 := by
    have hne : ((i : Int) == (e.2 : Int)) = false := by simpa using h.symm
    rw [Definitions.has, List.any_append, List.any_cons, List.any_nil, hne, Bool.or_false,
      Bool.or_false]
    rfl
  rw [completion?, completion?, hhas]

/-- What is added for a predicate is a formula of that predicate. -/
theorem completion?_eq_some {e : Predicate × ℕ} {v : Int × Term} :
    completion? defs e = some v ↔
      defs.has e.2 = false ∧ ∃ d, e.1.definition = some d ∧ v = ((e.2 : Int), d.formal e.1) := by
  unfold completion?
  split
  · next h => simp [h]
  · next h => simp [h, eq_comm]

/-- **The loop.** A loop that adds what is missing for one predicate after the other adds what is
missing from the map that it starts with. -/
theorem foldlM_completion {f : Definitions → Predicate × ℕ → Except Fault Definitions}
    {l : List (Predicate × ℕ)}
    (hf : ∀ e ∈ l, ∀ defs, f defs e = .ok (defs ++ (completion? defs e).toList))
    (hl : (l.map (·.2)).Nodup) (defs : Definitions) :
    l.foldlM f defs = .ok (defs ++ l.filterMap (completion? defs)) := by
  induction l generalizing defs with
  | nil => exact congrArg Except.ok (List.append_nil _).symm
  | cons e l ih =>
    obtain ⟨hstep, hf⟩ := List.forall_mem_cons.1 hf
    rw [List.map_cons, List.nodup_cons] at hl
    rw [List.foldlM_cons, hstep]
    refine (ih hf hl.2 _).trans (congrArg Except.ok ?_)
    cases hc : completion? defs e with
    | none => rw [List.filterMap_cons_none hc, Option.toList_none, List.append_nil]
    | some v =>
      obtain ⟨-, d, -, rfl⟩ := completion?_eq_some.1 hc
      -- The entry does not matter for the predicates that follow, which are others.
      have hrest : l.filterMap (completion? (defs ++ [((e.2 : Int), d.formal e.1)])) =
          l.filterMap (completion? defs) := by
        refine List.filterMap_congr fun e' he' => completion?_append ?_
        exact fun h => hl.1 (h ▸ List.mem_map_of_mem he')
      rw [List.filterMap_cons_some hc, Option.toList_some, hrest, List.append_assoc,
        List.singleton_append]

/-- A proper candidate passes all checks. -/
theorem definitionsFrom_eq (hdefs : inst.DefinitionsOverParams) (h : inst.IsProper candidate) :
    inst.definitionsFrom candidate = .ok (candidate ++ inst.completion candidate) := by
  unfold definitionsFrom
  rw [forM_eq_ok]
  -- A predicate with a definition is entered unless the candidate has it.
  · refine foldlM_completion ?_ ?_ candidate
    · rintro ⟨q, i⟩ he defs
      have hq := List.mem_of_getElem? (List.mem_zipIdx_iff_getElem?.1 he)
      have hparams := fun (d : Definition) hd => d.apply_params (hdefs q hq d hd).sorts
      unfold completion?
      dsimp only at hparams ⊢
      cases hd : q.definition with
      | none =>
        rw [Option.map_none, ite_self]
        exact congrArg Except.ok (List.append_nil _).symm
      | some d =>
        dsimp only
        rw [hparams d hd]
        cases hhas : defs.has i with
        | true => exact congrArg Except.ok (List.append_nil _).symm
        | false =>
          rw [Definitions.has] at hhas
          simp only [Definitions.insert, hhas]
          rfl
    · rw [List.zipIdx_map_snd]
      exact List.nodup_range'
  -- Each handle of the candidate is one of a predicate, and comes with a formula.
  · intro e he
    obtain ⟨⟨p, hp, hlt⟩, hbool⟩ := h e he
    dsimp only
    rw [hp, if_neg (by omega), Int.toNat_natCast, List.getElem?_eq_getElem hlt]
    dsimp only
    rw [if_pos hbool]
    rfl

/-! ### What is entered -/

theorem mem_completion {e : Int × Term} : e ∈ inst.completion candidate ↔
    ∃ (i : ℕ) (q : Predicate) (d : Definition), inst.preds[i]? = some q ∧
      q.definition = some d ∧ candidate.has i = false ∧ e = ((i : Int), d.formal q) := by
  unfold completion
  rw [List.mem_filterMap]
  constructor
  · rintro ⟨⟨q, i⟩, hq, he⟩
    obtain ⟨hhas, d, hd, rfl⟩ := completion?_eq_some.1 he
    exact ⟨i, q, d, List.mem_zipIdx_iff_getElem?.1 hq, hd, hhas, rfl⟩
  · rintro ⟨i, q, d, hq, hd, hhas, rfl⟩
    exact ⟨(q, i), List.mem_zipIdx_iff_getElem?.2 hq, completion?_eq_some.2 ⟨hhas, d, hd, rfl⟩⟩

theorem get?_append (defs rest : Definitions) (p : Int) :
    Definitions.get? (defs ++ rest) p = (defs.get? p).or (rest.get? p) := by
  unfold Definitions.get?
  rw [List.find?_append]
  cases defs.find? (·.1 == p) <;> rfl

theorem get?_isSome (defs : Definitions) (p : Int) : (defs.get? p).isSome = defs.has p := by
  rw [Definitions.get?, Option.isSome_map, List.isSome_find?]
  rfl

/-- The completion has one formula for each predicate that is left out. -/
theorem get?_completion {i : ℕ} {q : Predicate} {d : Definition} (hq : inst.preds[i]? = some q)
    (hd : q.definition = some d) (hhas : candidate.has i = false) :
    (inst.completion candidate).get? i = some (d.formal q) := by
  have hmem : ((i : Int), d.formal q) ∈ inst.completion candidate :=
    mem_completion.2 ⟨i, q, d, hq, hd, hhas, rfl⟩
  have hsome : ((inst.completion candidate).get? i).isSome = true := by
    rw [get?_isSome, Definitions.has, List.any_eq_true]
    exact ⟨_, hmem, beq_self_eq_true _⟩
  obtain ⟨u, hu⟩ := Option.isSome_iff_exists.1 hsome
  obtain ⟨e, he, rfl⟩ := Option.map_eq_some_iff.1 hu
  -- Whatever is found for the predicate is the formula of its definition.
  obtain ⟨j, q', d', hq', hd', -, rfl⟩ := mem_completion.1 (List.mem_of_find?_eq_some he)
  obtain rfl : j = i := by simpa using List.find?_some he
  obtain rfl : q = q' := Option.some.inj (hq.symm.trans hq')
  obtain rfl : d = d' := Option.some.inj (hd.symm.trans hd')
  exact hu

theorem has_completion (candidate : Definitions) (p : Int) :
    (inst.completion candidate).has p = true ↔
      candidate.has p = false ∧ ∃ i : ℕ, p = i ∧ (inst.definition? i).isSome = true := by
  rw [Definitions.has, List.any_eq_true]
  constructor
  · rintro ⟨e, he, hp⟩
    obtain ⟨i, q, d, hq, hd, hhas, rfl⟩ := mem_completion.1 he
    obtain rfl := beq_iff_eq.1 hp
    exact ⟨hhas, i, rfl, by rw [definition?, hq, Option.bind_some, hd]; rfl⟩
  · rintro ⟨hhas, i, rfl, hdef⟩
    obtain ⟨d, hdef⟩ := Option.isSome_iff_exists.1 hdef
    obtain ⟨q, hq, hd⟩ := Option.bind_eq_some_iff.1 hdef
    exact ⟨_, mem_completion.2 ⟨i, q, d, hq, hd, hhas, rfl⟩, beq_self_eq_true _⟩

/-- **Completion re-expresses definitions.** The completion of a candidate has its predicates, with
their formulas, and the defined predicates that it leaves out. For each of the latter, arguments of
the right sorts in place of the formal parameters give what the definition gives at them. -/
theorem definitionsFrom_reexpresses (hdefs : inst.DefinitionsOverParams)
    (hcandidate : inst.IsProper candidate) :
    ∃ defs, inst.definitionsFrom candidate = .ok defs ∧ candidate <+: defs ∧
      (∀ p, defs.has p = true ↔
        candidate.has p = true ∨ ∃ i : ℕ, p = i ∧ (inst.definition? i).isSome = true) ∧
      (∀ p, candidate.has p = true → defs.get? p = candidate.get? p) ∧
      ∀ (i : ℕ) (q : Predicate) (d : Definition), inst.preds[i]? = some q →
        q.definition = some d → candidate.has i = false →
        ∃ body, defs.get? i = some body ∧ ∀ args : List Term, args.map Term.sort = q.sorts →
          d.apply args = .ok (Term.substitute (q.params.zip args) body) := by
  refine ⟨_, definitionsFrom_eq hdefs hcandidate, List.prefix_append _ _, ?_, ?_, ?_⟩
  · intro p
    -- An entry is one of the candidate or one of the completion.
    have happend : Definitions.has (candidate ++ inst.completion candidate) p =
        (candidate.has p || (inst.completion candidate).has p) := List.any_append
    rw [happend, Bool.or_eq_true, has_completion]
    cases candidate.has p <;> simp
  · intro p hp
    rw [← get?_isSome] at hp
    rw [get?_append, Option.or_of_isSome hp]
  · intro i q d hq hd hhas
    -- The candidate has no formula for the predicate, so the completion's one is found.
    have hnone : candidate.get? i = none := by
      rw [← Option.not_isSome_iff_eq_none, get?_isSome, hhas]
      exact Bool.false_ne_true
    refine ⟨d.formal q, ?_, fun args hargs =>
      Definition.apply_formal (hdefs q (List.mem_of_getElem? hq) d hd) hargs⟩
    rw [get?_append, hnone, Option.none_or, get?_completion hq hd hhas]

/-- `P(P!1, P!0) := P!1 < P!0 ∧ ∃ y. y = P!1`, with the names of the formal parameters the other way
around, and an undefined predicate `Q`. -/
def swapped : Instance where
  name := "swapped"
  preds := [
    ⟨"P", [.int, .int], [.int, .int], [0, 1], some ⟨[⟨"P!1", .int⟩, ⟨"P!0", .int⟩],
      .op .and [.op .lt [.const ⟨"P!1", .int⟩, .const ⟨"P!0", .int⟩],
        .quant .some [⟨"y", .int⟩] (.op .eq [.bound 0 .int, .const ⟨"P!1", .int⟩])]⟩⟩,
    ⟨"Q", [.int], [.int], [0], none⟩]
  clauses := []
  users := [[], []]
  producers := [[], []]
  holders := 0
  expansions := []

/-- Over the formal parameters the definition of `swapped` reads `P!0 < P!1 ∧ ∃ y. y = P!0`; with
`P!1` for `P!0` and `Q!0` for `P!1` it is `P!1 < Q!0 ∧ ∃ y. y = P!1`. -/
theorem definitionsFrom_reexpresses_swapped :
    let formula (x y : Constant) : Term := .op .and [.op .lt [.const x, .const y],
      .quant .some [⟨"y", .int⟩] (.op .eq [.bound 0 .int, .const x])]
    swapped.DefinitionsOverParams ∧ swapped.IsProper [(1, .verum)] ∧
      swapped.definitionsFrom [(1, .verum)] =
        .ok [(1, .verum), (0, formula ⟨"P!0", .int⟩ ⟨"P!1", .int⟩)] ∧
      Term.substitute [(⟨"P!0", .int⟩, .const ⟨"P!1", .int⟩), (⟨"P!1", .int⟩, .const ⟨"Q!0", .int⟩)]
        (formula ⟨"P!0", .int⟩ ⟨"P!1", .int⟩) = formula ⟨"P!1", .int⟩ ⟨"Q!0", .int⟩ := by
  intro formula
  have hdefs : swapped.DefinitionsOverParams := by decide
  have hproper : swapped.IsProper [(1, .verum)] := by decide
  obtain ⟨defs, hfrom, -, -, -, hbody⟩ := definitionsFrom_reexpresses hdefs hproper
  have heval : swapped.definitionsFrom [(1, .verum)] =
      .ok [(1, .verum), (0, formula ⟨"P!0", .int⟩ ⟨"P!1", .int⟩)] := rfl
  obtain rfl := Except.ok.inj (heval.symm.trans hfrom)
  obtain ⟨body, hget, happly⟩ := hbody 0 _ _ rfl rfl rfl
  obtain rfl := Option.some.inj hget
  refine ⟨hdefs, hproper, heval, ?_⟩
  exact (Except.ok.inj (happly [.const ⟨"P!1", .int⟩, .const ⟨"Q!0", .int⟩] rfl)).symm

/-! ### Candidates for an instance without definitions -/

/-- The completion adds nothing where nothing is defined. -/
theorem definitionsFrom_of_undefined (h : ∀ q ∈ inst.preds, q.definition = none)
    (hc : inst.IsDraft candidate) : inst.definitionsFrom candidate = .ok candidate := by
  have hdefs : inst.DefinitionsOverParams := by
    intro q hq d hd
    rw [h q hq] at hd
    cases hd
  have hnothing : inst.completion candidate = [] := by
    refine List.filterMap_eq_nil_iff.2 fun e he => ?_
    have hq := List.mem_of_getElem? (List.mem_zipIdx_iff_getElem?.1 he)
    rw [completion?, h e.1 hq, Option.map_none, ite_self]
  rw [definitionsFrom_eq hdefs hc.isProper, hnothing, List.append_nil]

/-- What is collected from a candidate for an instance without definitions is the candidate, with
simplified formulas if nobody holds the instance. -/
theorem collected_of_taken (engine : Engine) (h : ∀ q ∈ inst.preds, q.definition = none)
    {candidate : Definitions} (hc : inst.IsDraft candidate)
    (htaken : ∀ e ∈ candidate, e.2.TakenBy engine.callable) :
    inst.collected engine candidate =
      .ok (if inst.isExclusive then candidate.map fun e => (e.1, engine.simplify e.2)
        else candidate) := by
  unfold collected
  rw [definitionsFrom_of_undefined h hc]
  dsimp only [Except.bind]
  split
  · have hself : ∀ e ∈ candidate, inst.expand e.2 engine.callable = .ok e.2 := fun e he =>
      expandFrom_eq_self (hc e he).2.2 (htaken e he) (Expanded.of_undefined h _) _ _
    have hall := simplified_append engine hself []
    rw [List.append_nil] at hall
    rw [hall]
    exact congrArg Except.ok (List.append_nil _)
  · rfl

/-- Collecting from a candidate for an instance without definitions can only fail because a call is
refused. -/
theorem collected_of_undefined (engine : Engine) (h : ∀ q ∈ inst.preds, q.definition = none)
    {candidate : Definitions} (hc : inst.IsDraft candidate) :
    UnlessRefused (inst.collected engine candidate)
      (.ok (if inst.isExclusive then candidate.map fun e => (e.1, engine.simplify e.2)
        else candidate)) := by
  have hall := collected_of_taken engine.lenient h hc fun e _ => Term.takenBy_any e.2
  exact hall ▸ collected_unlessRefused engine inst candidate

end Instance
end Horn
