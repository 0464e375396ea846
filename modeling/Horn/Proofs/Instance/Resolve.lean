import Horn.Proofs.Instance.Expand
import Horn.Proofs.Instance.Safe
import Horn.Proofs.Semantics.Substitution

/-!
# What expansion resolves

Applications of safe predicates are expanded until no predicate is applied any more outside of
quantified formulas. Quantified formulas are left as they are: a predicate that a definition
mentions under a quantifier survives, if the quantified formula itself does. A definition may drop
it, for one that stands in an argument is only kept where the definition uses the parameter.

* `Instance.Retains X s t` follows a term down to its quantified formulas, through definitions. Over
  parameters `X`, the expansion of `t` retains a predicate under a quantifier (`s = none`), or what
  is put in for the parameter `x` (`s = some x`).
* `Instance.Resolves` is what is known of the expansion of a term, in particular that it mentions a
  predicate exactly if the term retains one, or an argument that mentions one.
* `Instance.expandFrom_resolves`: terms over the predicates of a resolved list are expanded, and
  their expansions resolve them. The list is used up from its end: a definition only mentions
  predicates that come before its own, so what is being unfolded never comes up again and the
  depth of unfolding is bounded by the length of the list.
-/

namespace Horn

/-! ### Terms -/

namespace Term

mutual

/-- The symbols applied in a term under quantifiers, from left to right. -/
def inner : Term → List Symbol
  | .lit _ => []
  | .bound _ _ => []
  | .fn _ as => innerList as
  | .op _ as => innerList as
  | .quant _ _ b => b.symbols

/-- The symbols applied in a list of terms under quantifiers. -/
def innerList : List Term → List Symbol
  | [] => []
  | a :: as => inner a ++ innerList as

end

@[simp] theorem innerList_eq_flatMap (as : List Term) : innerList as = as.flatMap inner := by
  induction as with
  | nil => rfl
  | cons a as ih => simp [innerList, ih]

/-- Putting nothing in changes nothing. -/
theorem substitute_nil (t : Term) : substitute [] t = t := replace_eq_self (fun _ => rfl) 0 t

/-- Values that are related one by one are found at the same parameter. -/
theorem lookupLast_zip {R : Term → Term → Prop} {as bs : List Term} (h : List.Forall₂ R as bs)
    (xs : List Constant) (y : Constant) :
    Option.Rel R (lookupLast (xs.zip as) y) (lookupLast (xs.zip bs) y) := by
  induction h generalizing xs with
  | nil =>
    rw [List.zip_nil_right]
    exact .none
  | @cons a b as bs hab _ ih =>
    -- The induction is on the values; there may be fewer parameters, or more.
    cases xs with
    | nil => exact .none
    | cons x xs =>
      rw [List.zip_cons_cons, List.zip_cons_cons, lookupLast_cons, lookupLast_cons]
      have hrel := ih xs
      generalize lookupLast (xs.zip as) y = oa, lookupLast (xs.zip bs) y = ob at hrel ⊢
      cases hrel with
      | some h => exact .some h
      -- Nothing is found later on, so the first pair decides.
      | none =>
        simp only [Option.none_or]
        split
        · exact .some hab
        · exact .none

end Term

/-- Arguments of the sorts of the parameters are put in for them. -/
theorem Definition.apply_of_sorts {d : Definition} {args : List Term}
    (h : args.map Term.sort = d.params.map (·.sort)) :
    d.apply args = .ok (Term.substitute (d.params.zip args) d.body) := by
  have hlength : args.length = d.params.length := by
    rw [← List.length_map Term.sort, h, List.length_map]
  unfold apply
  rw [if_neg (not_not_intro hlength)]
  -- Without parameters the body is taken as it is.
  split
  · next hempty =>
    rw [List.isEmpty_iff.1 hempty, List.zip_nil_left, Term.substitute_nil]
  · rfl

/-- The formal parameters have the sorts of the signature. -/
theorem Predicate.sorts_params (q : Predicate) : q.params.map (·.sort) = q.sorts := by
  rw [params, List.map_map]
  exact List.zipIdx_map_fst 0 q.sorts

/-- A definition fits its predicate if it is a closed formula over parameters of the sorts of the
signature. -/
structure Definition.Fits (d : Definition) (q : Predicate) : Prop where
  params : d.params.map (·.sort) = q.sorts
  body : d.body.IsFormula

instance (d : Definition) (q : Predicate) : Decidable (d.Fits q) :=
  decidable_of_iff (d.params.map (·.sort) = q.sorts ∧ d.body.IsFormula)
    ⟨fun h => ⟨h.1, h.2⟩, fun h => ⟨h.1, h.2⟩⟩

namespace Instance

variable {inst : Instance}

/-- All definitions fit their predicates. -/
def FittingDefinitions (inst : Instance) : Prop :=
  ∀ q ∈ inst.preds, ∀ d ∈ q.definition, d.Fits q

instance (inst : Instance) : Decidable inst.FittingDefinitions :=
  inferInstanceAs (Decidable (∀ q ∈ inst.preds, ∀ d ∈ q.definition, d.Fits q))

/-! ### Mentioned predicates -/

/-- The term mentions a predicate of the instance, also under quantifiers. -/
def Mentions (inst : Instance) (t : Term) : Prop := ∃ q ∈ inst.preds, q.symbol ∈ t.symbols

instance (inst : Instance) (t : Term) : Decidable (inst.Mentions t) :=
  inferInstanceAs (Decidable (∃ q ∈ inst.preds, q.symbol ∈ t.symbols))

theorem mentions_iff {t : Term} : inst.Mentions t ↔ inst.predsIn t ≠ [] := by
  constructor
  · rintro ⟨q, hq, hs⟩
    obtain ⟨p, hp⟩ := List.getElem?_of_mem hq
    exact List.ne_nil_of_mem (mem_predsIn.2 ⟨q, hp, hs⟩)
  · intro h
    obtain ⟨p, hp⟩ := List.exists_mem_of_ne_nil _ h
    obtain ⟨q, hq, hs⟩ := mem_predsIn.1 hp
    exact ⟨q, List.mem_of_getElem? hq, hs⟩

theorem mentions_op {f : Op} {as : List Term} :
    inst.Mentions (.op f as) ↔ ∃ a ∈ as, inst.Mentions a := by
  unfold Mentions
  simp only [Term.symbols, Term.symbolsList_eq_flatMap, List.mem_flatMap]
  tauto

/-- An application mentions its symbol, if that is the one of a predicate. -/
theorem mentions_fn {f : Symbol} {as : List Term} :
    inst.Mentions (.fn f as) ↔ (∃ q ∈ inst.preds, q.symbol = f) ∨ ∃ a ∈ as, inst.Mentions a := by
  -- The arguments mention what any operator on them does.
  rw [← mentions_op (f := .and)]
  unfold Mentions
  simp only [Term.symbols, List.mem_cons, and_or_left, exists_or]

/-- The predicate that a symbol applies. -/
theorem predOf?_eq_some {f : Symbol} {p : Nat} (h : inst.predOf? f = some p) :
    ∃ q, inst.preds[p]? = some q ∧ q.symbol = f := by
  obtain ⟨hlt, hq, -⟩ := List.findIdx?_eq_some_iff_getElem.1 h
  exact ⟨_, List.getElem?_eq_getElem hlt, beq_iff_eq.1 hq⟩

theorem mem_predsIn_of_predOf? {t : Term} {f : Symbol} {p : Nat} (hf : f ∈ t.symbols)
    (hp : inst.predOf? f = some p) : p ∈ inst.predsIn t := by
  obtain ⟨q, hq, rfl⟩ := predOf?_eq_some hp
  exact mem_predsIn.2 ⟨q, hq, hf⟩

/-- The term applies no predicate outside of its quantified formulas. -/
def Unfolded (inst : Instance) (t : Term) : Prop := ∀ f ∈ t.outer, inst.predOf? f = none

/-! ### What is retained -/

/-- What the expansion of a term over the parameters `X` retains, in spite of the definitions of all
predicates: a predicate, under a quantifier (`none`), or what is put in for a parameter (`some x`).
A predicate whose symbol is the one of a parameter is not meant. -/
inductive Retains (inst : Instance) : List Constant → Option Constant → Term → Prop
  | param {X : List Constant} {x : Constant} : x ∈ X → Retains inst X (some x) (.fn x.symbol [])
  | function {X : List Constant} {s : Option Constant} {f : Symbol} {as : List Term} {a : Term} :
      f ∉ X.map (·.symbol) → inst.predOf? f = none → a ∈ as → Retains inst X s a →
      Retains inst X s (.fn f as)
  | operator {X : List Constant} {s : Option Constant} {f : Op} {as : List Term} {a : Term} :
      a ∈ as → Retains inst X s a → Retains inst X s (.op f as)
  | boundParam {X : List Constant} {x : Constant} {q : Quantifier} {xs : List Constant} {b : Term} :
      x ∈ X → x.symbol ∈ b.symbols → Retains inst X (some x) (.quant q xs b)
  | boundPred {X : List Constant} {r : Predicate} {q : Quantifier} {xs : List Constant} {b : Term} :
      r ∈ inst.preds → r.symbol ∈ b.symbols → r.symbol ∉ X.map (·.symbol) →
      Retains inst X none (.quant q xs b)
  | body {X : List Constant} {f : Symbol} {as : List Term} {p : Nat} {d : Definition} :
      f ∉ X.map (·.symbol) → inst.predOf? f = some p → inst.definition? p = some d →
      Retains inst d.params none d.body → Retains inst X none (.fn f as)
  | argument {X : List Constant} {s : Option Constant} {f : Symbol} {as : List Term} {p : Nat}
      {d : Definition} {y : Constant} {a : Term} :
      f ∉ X.map (·.symbol) → inst.predOf? f = some p → inst.definition? p = some d →
      Term.lookupLast (d.params.zip as) y = some a → Retains inst d.params (some y) d.body →
      Retains inst X s a → Retains inst X s (.fn f as)

variable {X : List Constant} {s : Option Constant}

theorem not_retains_lit (a : Literal) : ¬inst.Retains X s (.lit a) := nofun

/-- A parameter retains itself. -/
theorem retains_param {x : Constant} (hx : x ∈ X) :
    inst.Retains X s (.fn x.symbol []) ↔ s = some x := by
  have hmem : x.symbol ∈ X.map (·.symbol) := List.mem_map_of_mem hx
  constructor
  · intro h
    -- The indices have to be variables before the cases can be told apart.
    generalize hf : x.symbol = f, hnil : [] = as at h
    rw [hf] at hmem
    cases h with
    | param => rw [Constant.symbol_injective hf]
    -- All other rules are about symbols that are no parameter's.
    | function hnot => exact absurd hmem hnot
    | body hnot => exact absurd hmem hnot
    | argument hnot => exact absurd hmem hnot
  · rintro rfl
    exact .param hx

/-- A function retains what its arguments do. -/
theorem retains_function {f : Symbol} {as : List Term} (hf : f ∉ X.map (·.symbol))
    (hp : inst.predOf? f = none) :
    inst.Retains X s (.fn f as) ↔ ∃ a ∈ as, inst.Retains X s a := by
  constructor
  · intro h
    cases h with
    | param hx => exact absurd (List.mem_map_of_mem hx) hf
    | function _ _ ha h => exact ⟨_, ha, h⟩
    -- The symbol is not the one of a predicate, so nothing is unfolded.
    | body _ hq =>
      rw [hp] at hq
      cases hq
    | argument _ hq =>
      rw [hp] at hq
      cases hq
  · rintro ⟨a, ha, h⟩
    exact .function hf hp ha h

/-- An operator retains what its arguments do. -/
theorem retains_operator {f : Op} {as : List Term} :
    inst.Retains X s (.op f as) ↔ ∃ a ∈ as, inst.Retains X s a := by
  constructor
  · intro h
    cases h with
    | operator ha h => exact ⟨_, ha, h⟩
  · rintro ⟨a, ha, h⟩
    exact .operator ha h

/-- A quantified formula retains everything that occurs in it. -/
theorem retains_quant {q : Quantifier} {xs : List Constant} {b : Term} :
    inst.Retains X s (.quant q xs b) ↔
      (∃ x ∈ X, x.symbol ∈ b.symbols ∧ s = some x) ∨
        (s = none ∧ ∃ r ∈ inst.preds, r.symbol ∈ b.symbols ∧ r.symbol ∉ X.map (·.symbol)) := by
  constructor
  · intro h
    cases h with
    | boundParam hx hb => exact .inl ⟨_, hx, hb, rfl⟩
    | boundPred hr hb hnot => exact .inr ⟨rfl, _, hr, hb, hnot⟩
  · rintro (⟨x, hx, hb, rfl⟩ | ⟨rfl, r, hr, hb, hnot⟩)
    · exact .boundParam hx hb
    · exact .boundPred hr hb hnot

/-- The application of a defined predicate retains what the definition does, and what the arguments
do that the definition retains. -/
theorem retains_application {f : Symbol} {as : List Term} {p : Nat} {d : Definition}
    (hf : f ∉ X.map (·.symbol)) (hp : inst.predOf? f = some p)
    (hd : inst.definition? p = some d) :
    inst.Retains X s (.fn f as) ↔
      (s = none ∧ inst.Retains d.params none d.body) ∨
        ∃ y a, Term.lookupLast (d.params.zip as) y = some a ∧
          inst.Retains d.params (some y) d.body ∧ inst.Retains X s a := by
  constructor
  · intro h
    cases h with
    | param hx => exact absurd (List.mem_map_of_mem hx) hf
    | function _ hq =>
      rw [hp] at hq
      cases hq
    -- The four ways to retain exclude each other: only the last two are about a defined predicate.
    | body _ hp' hd' h =>
      obtain rfl := Option.some.inj (hp.symm.trans hp')
      obtain rfl := Option.some.inj (hd.symm.trans hd')
      exact .inl ⟨rfl, h⟩
    | argument _ hp' hd' ha hy h =>
      obtain rfl := Option.some.inj (hp.symm.trans hp')
      obtain rfl := Option.some.inj (hd.symm.trans hd')
      exact .inr ⟨_, _, ha, hy, h⟩
  · rintro (⟨rfl, h⟩ | ⟨y, a, ha, hy, h⟩)
    · exact .body hf hp hd h
    · exact .argument hf hp hd ha hy h

/-- What is retained apart from arguments are predicates that the term mentions. -/
theorem Retains.mentions {t : Term} (h : inst.Retains X s t) (hs : s = none) :
    inst.Mentions t := by
  induction h with
  | param => cases hs
  | function _ _ ha _ ih => exact mentions_fn.2 (.inr ⟨_, ha, ih hs⟩)
  | operator ha _ ih => exact mentions_op.2 ⟨_, ha, ih hs⟩
  | boundParam => cases hs
  | boundPred hr hb => exact ⟨_, hr, hb⟩
  -- The application itself mentions the predicate that is unfolded.
  | body _ hp =>
    obtain ⟨q, hq, hf⟩ := predOf?_eq_some hp
    exact mentions_fn.2 (.inl ⟨q, List.mem_of_getElem? hq, hf⟩)
  | argument _ hp =>
    obtain ⟨q, hq, hf⟩ := predOf?_eq_some hp
    exact mentions_fn.2 (.inl ⟨q, List.mem_of_getElem? hq, hf⟩)

/-- Nothing is retained if neither the term nor a definition mentions predicates under
quantifiers. -/
theorem not_retains_of_inner
    (hdefs : ∀ q ∈ inst.preds, ∀ d ∈ q.definition, ∀ r ∈ inst.preds, r.symbol ∉ d.body.inner)
    {t : Term} (ht : ∀ r ∈ inst.preds, r.symbol ∉ t.inner) : ¬inst.Retains X none t := by
  intro h
  -- The rules for arguments come back to `none`, so the source is kept as an index.
  generalize hs : none = s at h
  induction h with
  | param => cases hs
  | function _ _ ha _ ih =>
    refine ih (fun r hr hmem => ht r hr ?_) hs
    rw [Term.inner, Term.innerList_eq_flatMap]
    exact List.mem_flatMap_of_mem ha hmem
  | operator ha _ ih =>
    refine ih (fun r hr hmem => ht r hr ?_) hs
    rw [Term.inner, Term.innerList_eq_flatMap]
    exact List.mem_flatMap_of_mem ha hmem
  | boundParam => cases hs
  | boundPred hr hb => exact ht _ hr hb
  -- From here on the definition is followed, and the term is left.
  | body _ _ hd _ ih =>
    obtain ⟨q, hq, hqd⟩ := Option.bind_eq_some_iff.1 hd
    exact ih (hdefs q (List.mem_of_getElem? hq) _ hqd) rfl
  | argument _ _ _ ha _ _ _ ih =>
    refine ih (fun r hr hmem => ht r hr ?_) hs
    rw [Term.inner, Term.innerList_eq_flatMap]
    exact List.mem_flatMap_of_mem (List.of_mem_zip (Term.mem_of_lookupLast ha)).2 hmem

/-! ### What is known of an expansion -/

/-- What is retained contributes a predicate to the expansion: it is one, or what is put in for the
parameter mentions one. -/
def Contributes (inst : Instance) (σ : List (Constant × Term)) : Option Constant → Prop
  | none => True
  | some x => ∃ a, Term.lookupLast σ x = some a ∧ inst.Mentions a

/-- The term `u` is what a term `t` over the constants of `σ` becomes when the values are put in and
all predicates are expanded. -/
structure Resolves (inst : Instance) (σ : List (Constant × Term)) (t u : Term) : Prop where
  sort : u.sort = t.sort
  wellSorted : u.isWellSorted [] = true
  unfolded : inst.Unfolded u
  mentions_iff : inst.Mentions u ↔
    ∃ s, inst.Retains (σ.map (·.1)) s t ∧ inst.Contributes σ s

/-- The values of the constants of `σ` are closed, of the right sorts, and expanded. -/
structure Supplies (inst : Instance) (σ : List (Constant × Term)) : Prop where
  isSubstitution : Term.IsSubstitution (Term.lookupLast σ)
  unfolded : ∀ {x a}, Term.lookupLast σ x = some a → inst.Unfolded a

variable {σ : List (Constant × Term)}

theorem supplies_nil (inst : Instance) : inst.Supplies [] := ⟨⟨nofun, nofun⟩, nofun⟩

/-- Expanded arguments of the right sorts may be put in for parameters. -/
theorem supplies_zip {xs : List Constant} {as : List Term}
    (hs : as.map Term.sort = xs.map (·.sort)) (hw : ∀ a ∈ as, a.isWellSorted [] = true)
    (hu : ∀ a ∈ as, inst.Unfolded a) : inst.Supplies (xs.zip as) :=
  ⟨Term.isSubstitution_zip hs hw, fun h => hu _ (List.of_mem_zip (Term.mem_of_lookupLast h)).2⟩

section Lists

variable {as bs : List Term}

theorem sorts_of_resolves (h : List.Forall₂ (inst.Resolves σ) as bs) :
    bs.map Term.sort = as.map Term.sort := by
  induction h with
  | nil => rfl
  | cons h _ ih => rw [List.map_cons, List.map_cons, h.sort, ih]

theorem forall_of_resolves (h : List.Forall₂ (inst.Resolves σ) as bs) :
    ∀ b ∈ bs, b.isWellSorted [] = true ∧ inst.Unfolded b := by
  induction h with
  | nil => exact List.forall_mem_nil _
  | cons h _ ih => exact List.forall_mem_cons.2 ⟨⟨h.wellSorted, h.unfolded⟩, ih⟩

/-- A predicate is mentioned by one of the expansions if one of the terms retains it. -/
theorem exists_mentions_iff (h : List.Forall₂ (inst.Resolves σ) as bs) :
    (∃ b ∈ bs, inst.Mentions b) ↔
      ∃ s, (∃ a ∈ as, inst.Retains (σ.map (·.1)) s a) ∧ inst.Contributes σ s := by
  induction h with
  | nil => simp
  | cons h _ ih =>
    simp only [List.mem_cons, or_and_right, exists_or, exists_eq_left, h.mentions_iff, ih]

/-- What the expanded arguments contribute comes from what the arguments retain. -/
theorem contributes_zip_iff (h : List.Forall₂ (inst.Resolves σ) as bs) (xs : List Constant)
    (y : Constant) : inst.Contributes (xs.zip bs) (some y) ↔
      ∃ a, Term.lookupLast (xs.zip as) y = some a ∧
        ∃ s, inst.Retains (σ.map (·.1)) s a ∧ inst.Contributes σ s := by
  have hrel := Term.lookupLast_zip h xs y
  change (∃ b, Term.lookupLast (xs.zip bs) y = some b ∧ inst.Mentions b) ↔ _
  generalize Term.lookupLast (xs.zip as) y = oa, Term.lookupLast (xs.zip bs) y = ob at hrel ⊢
  cases hrel with
  | none => simp
  | some hab => simp only [Option.some.injEq, exists_eq_left', hab.mentions_iff]

end Lists

/-! ### One level of unfolding -/

theorem resolves_lit (a : Literal) : inst.Resolves σ (.lit a) (.lit a) :=
  ⟨rfl, rfl, nofun, iff_of_false (fun ⟨_, _, h⟩ => List.not_mem_nil h)
    fun ⟨_, h, _⟩ => not_retains_lit a h⟩

/-- A parameter is resolved by its value. -/
theorem Supplies.param (h : inst.Supplies σ) {x : Constant} {a : Term}
    (ha : Term.lookupLast σ x = some a) : inst.Resolves σ (.fn x.symbol []) a := by
  have hx : x ∈ σ.map (·.1) := List.mem_map_of_mem (Term.mem_of_lookupLast ha)
  refine ⟨h.isSubstitution.sort ha, h.isSubstitution.wellSorted ha, h.unfolded ha, ?_⟩
  simp only [retains_param hx, exists_eq_left, Contributes, ha, Option.some.injEq, exists_eq_left']

/-- A function is resolved with its arguments. -/
theorem resolves_function {f : Symbol} {as bs : List Term} (hf : f ∉ σ.map (·.1.symbol))
    (hp : inst.predOf? f = none) (hs : as.map Term.sort = f.domain)
    (h : List.Forall₂ (inst.Resolves σ) as bs) : inst.Resolves σ (.fn f as) (.fn f bs) := by
  have hall := forall_of_resolves h
  have hX : f ∉ (σ.map (·.1)).map (·.symbol) := by rwa [List.map_map]
  refine ⟨rfl, ?_, ?_, ?_⟩
  · rw [Term.isWellSorted, Bool.and_eq_true, beq_iff_eq, Term.isWellSortedList_iff,
      sorts_of_resolves h]
    exact ⟨hs, fun b hb => (hall b hb).1⟩
  · unfold Unfolded
    rw [Term.outer, List.forall_mem_cons, Term.outerList_eq_flatMap, List.forall_mem_flatMap]
    exact ⟨hp, fun b hb => (hall b hb).2⟩
  · -- The function itself is no predicate that could be mentioned.
    have hnot : ¬∃ q ∈ inst.preds, q.symbol = f := by
      rintro ⟨q, hq, hqf⟩
      exact predOf?_eq_none.1 hp q hq hqf
    simp only [retains_function hX hp, mentions_fn, hnot, false_or, exists_mentions_iff h]

/-- An operator is resolved with its arguments. -/
theorem resolves_operator {f : Op} {as bs : List Term} (hs : f.fits (as.map Term.sort) = true)
    (h : List.Forall₂ (inst.Resolves σ) as bs) : inst.Resolves σ (.op f as) (.op f bs) := by
  have hall := forall_of_resolves h
  refine ⟨?_, ?_, ?_, ?_⟩
  · rw [Term.sort, Term.sort, Term.sortHeads_eq_map, Term.sortHeads_eq_map, sorts_of_resolves h]
  · rw [Term.isWellSorted, Bool.and_eq_true, Term.isWellSortedList_iff, sorts_of_resolves h]
    exact ⟨hs, fun b hb => (hall b hb).1⟩
  · unfold Unfolded
    rw [Term.outer, Term.outerList_eq_flatMap, List.forall_mem_flatMap]
    exact fun b hb => (hall b hb).2
  · simp only [retains_operator, mentions_op, exists_mentions_iff h]

/-- A quantified formula is resolved by putting the values in: nothing in it is unfolded. -/
theorem Supplies.quant (h : inst.Supplies σ) {q : Quantifier} {xs : List Constant} {b : Term}
    (hw : (Term.quant q xs b).isWellSorted [] = true) :
    inst.Resolves σ (.quant q xs b) (Term.substitute σ (.quant q xs b)) := by
  refine ⟨rfl, Term.isWellSorted_replace h.isSubstitution hw, nofun, ?_⟩
  have hmem := fun g => Term.mem_symbols_replace h.isSubstitution 0 g (.quant q xs b) [] hw
  unfold Mentions Term.substitute
  simp only [hmem, Term.Replaced, retains_quant]
  constructor
  · -- A predicate in the result was there before, or came with a value.
    rintro ⟨r, hr, ⟨hb, hnone⟩ | ⟨x, a, ha, hx, hra⟩⟩
    · refine ⟨none, .inr ⟨rfl, r, hr, hb, fun hmem => ?_⟩, trivial⟩
      obtain ⟨x, hx, hxr⟩ := List.mem_map.1 hmem
      exact Term.lookupLast_eq_none.1 (hnone x hxr) hx
    · have hmem : x ∈ σ.map (·.1) := List.mem_map_of_mem (Term.mem_of_lookupLast ha)
      exact ⟨some x, .inl ⟨x, hmem, hx, rfl⟩, a, ha, r, hr, hra⟩
  · rintro ⟨s, ⟨x, -, hb, rfl⟩ | ⟨rfl, r, hr, hb, hnot⟩, hs⟩
    · -- What came with a value is mentioned by the value of that parameter.
      obtain ⟨a, ha, r, hr, hra⟩ := hs
      exact ⟨r, hr, .inr ⟨x, a, ha, hb, hra⟩⟩
    · refine ⟨r, hr, .inl ⟨hb, fun x hx => ?_⟩⟩
      rw [Term.lookupLast_eq_none]
      exact fun hmem => hnot (hx ▸ List.mem_map_of_mem hmem)

/-- What unfolding the applications of the predicates of a list comes to: they have definitions, and
what a definition becomes with expanded arguments resolves it. Functions are not unfolded. -/
structure Unfolds (inst : Instance) (l : List Nat)
    (unfold : Symbol → List Term → Option (Except Fault Term)) : Prop where
  function : ∀ {f}, inst.predOf? f = none → ∀ args, unfold f args = none
  application : ∀ {f p}, inst.predOf? f = some p → p ∈ l →
    ∃ d, inst.definition? p = some d ∧ d.params.map (·.sort) = f.domain ∧ d.body.sort = f.range ∧
      ∀ args, args.map Term.sort = f.domain → (∀ a ∈ args, a.isWellSorted [] = true) →
        (∀ a ∈ args, inst.Unfolded a) →
        ∃ u, unfold f args = some (.ok u) ∧ inst.Resolves (d.params.zip args) d.body u

/-- An application is resolved by what its definition becomes. -/
theorem resolves_application {f : Symbol} {as bs : List Term} {p : Nat} {d : Definition} {u : Term}
    (hf : f ∉ σ.map (·.1.symbol)) (hp : inst.predOf? f = some p)
    (hd : inst.definition? p = some d) (hparams : d.params.length = bs.length)
    (hrange : d.body.sort = f.range) (h : List.Forall₂ (inst.Resolves σ) as bs)
    (hu : inst.Resolves (d.params.zip bs) d.body u) : inst.Resolves σ (.fn f as) u := by
  have hX : f ∉ (σ.map (·.1)).map (·.symbol) := by rwa [List.map_map]
  refine ⟨hu.sort.trans hrange, hu.wellSorted, hu.unfolded, ?_⟩
  rw [hu.mentions_iff, List.map_fst_zip hparams.le]
  constructor
  · -- What the definition retains is a predicate of its own, or what stands in an argument.
    rintro ⟨_ | y, hy, hc⟩
    · exact ⟨none, (retains_application hX hp hd).2 (.inl ⟨rfl, hy⟩), trivial⟩
    · obtain ⟨a, ha, s, hs, hc⟩ := (contributes_zip_iff h d.params y).1 hc
      exact ⟨s, (retains_application hX hp hd).2 (.inr ⟨y, a, ha, hy, hs⟩), hc⟩
  · rintro ⟨s, hs, hc⟩
    rcases (retains_application hX hp hd).1 hs with ⟨rfl, hy⟩ | ⟨y, a, ha, hy, hs⟩
    · exact ⟨none, hy, trivial⟩
    · exact ⟨some y, hy, (contributes_zip_iff h d.params y).2 ⟨a, ha, s, hs, hc⟩⟩

mutual

/-- One level of unfolding resolves a term, if it does what it should with the predicates that the
term mentions. -/
theorem expandBy_resolves {callable : Callable} (hcall : callable.Reapplies) {l : List Nat}
    {unfold : Symbol → List Term → Option (Except Fault Term)}
    (hunfold : inst.Unfolds l unfold) (hσ : inst.Supplies σ) : ∀ t : Term,
    t.isWellSorted [] = true → (∀ f ∈ t.symbols, ∀ p, inst.predOf? f = some p → p ∈ l) →
      ∃ u, expandBy callable unfold (Term.substitute σ t) = .ok u ∧ inst.Resolves σ t u
  | .lit a, _, _ => ⟨.lit a, rfl, resolves_lit a⟩
  | .bound i s, hw, _ => by
    rw [Term.isWellSorted] at hw
    cases hw
  | .fn f as, hw, hl => by
    rw [Term.isWellSorted, Bool.and_eq_true, beq_iff_eq] at hw
    rw [Term.symbols, List.forall_mem_cons] at hl
    rcases Term.replace_fn (Term.lookupLast σ) 0 f as with ⟨x, a, rfl, rfl, ha, heq⟩ | ⟨hnone, heq⟩
    · -- A parameter becomes its value, which is expanded already.
      refine ⟨a, ?_, hσ.param ha⟩
      rw [Term.substitute, heq, hσ.isSubstitution.lift ha]
      have hwa := hσ.isSubstitution.wellSorted ha
      exact expandBy_eq_self a [] (.of_isWellSorted hwa) (.of_isWellSorted hcall hwa)
        fun g hg args => hunfold.function (hσ.unfolded ha g hg) args
    · -- Without arguments the symbol would be the one of a parameter, which has a value.
      have hf : f ∉ σ.map (·.1.symbol) := by
        intro hmem
        obtain ⟨e, he, rfl⟩ := List.mem_map.1 hmem
        have hnil : as = [] := List.map_eq_nil_iff.1 hw.1
        exact Term.lookupLast_eq_none.1 (hnone e.1 rfl hnil) (List.mem_map_of_mem he)
      -- The arguments come first, and the definition gets them expanded.
      obtain ⟨bs, hbs, h⟩ := expandListBy_resolves hcall hunfold hσ as hw.2 hl.2
      have hsorts : bs.map Term.sort = f.domain := (sorts_of_resolves h).trans hw.1
      have hall := forall_of_resolves h
      rw [Term.substitute, heq, expandBy, hbs]
      dsimp only
      cases hp : inst.predOf? f with
      | none =>
        refine ⟨.fn f bs, ?_, resolves_function hf hp hw.1 h⟩
        rw [hunfold.function hp bs]
        exact reapply_self hsorts
      | some p =>
        obtain ⟨d, hd, hparams, hrange, hargs⟩ := hunfold.application hp (hl.1 p hp)
        obtain ⟨u, hu, hres⟩ :=
          hargs bs hsorts (fun b hb => (hall b hb).1) fun b hb => (hall b hb).2
        have hlength : d.params.length = bs.length := by
          rw [← List.length_map (·.sort), hparams, ← hsorts, List.length_map]
        rw [hu]
        exact ⟨u, rfl, resolves_application hf hp hd hlength hrange h hres⟩
  | .op f as, hw, hl => by
    rw [Term.isWellSorted, Bool.and_eq_true] at hw
    obtain ⟨bs, hbs, h⟩ := expandListBy_resolves hcall hunfold hσ as hw.2 hl
    have hsorts := sorts_of_resolves h
    refine ⟨.op f bs, ?_, resolves_operator hw.1 h⟩
    rw [Term.substitute, Term.replace, expandBy, hbs]
    refine rebuild_of_fits hcall (hsorts ▸ hw.1) ?_
    rw [(hσ.isSubstitution.inContext []).sorts_replaceList, hsorts]
  | .quant q xs b, hw, _ => ⟨_, rfl, hσ.quant hw⟩

/-- One level of unfolding resolves the terms of a list. -/
theorem expandListBy_resolves {callable : Callable} (hcall : callable.Reapplies) {l : List Nat}
    {unfold : Symbol → List Term → Option (Except Fault Term)}
    (hunfold : inst.Unfolds l unfold) (hσ : inst.Supplies σ) : ∀ as : List Term,
    Term.isWellSortedList [] as = true →
    (∀ f ∈ Term.symbolsList as, ∀ p, inst.predOf? f = some p → p ∈ l) →
      ∃ bs, expandListBy callable unfold (Term.replaceList (Term.lookupLast σ) 0 as) = .ok bs ∧
        List.Forall₂ (inst.Resolves σ) as bs
  | [], _, _ => ⟨[], rfl, .nil⟩
  | a :: as, hw, hl => by
    rw [Term.isWellSortedList, Bool.and_eq_true] at hw
    rw [Term.symbolsList, List.forall_mem_append] at hl
    obtain ⟨b, hb, h⟩ := expandBy_resolves hcall hunfold hσ a hw.1 hl.1
    obtain ⟨bs, hbs, hs⟩ := expandListBy_resolves hcall hunfold hσ as hw.2 hl.2
    refine ⟨b :: bs, ?_, .cons h hs⟩
    rw [Term.substitute] at hb
    rw [Term.replaceList, expandListBy, hb, hbs]

end

/-! ### All levels -/

/-- A predicate of the table is found by its symbol. -/
theorem predOf?_symbol (hn : DistinctNames inst.preds) {p : Nat} {q : Predicate}
    (hq : inst.preds[p]? = some q) : inst.predOf? q.symbol = some p := by
  obtain ⟨hlt, hget⟩ := List.getElem?_eq_some_iff.1 hq
  rw [predOf?, List.findIdx?_eq_some_iff_getElem]
  refine ⟨hlt, by simp [hget], fun j hj hc => ?_⟩
  have hjp := hn.index_eq (List.getElem?_eq_getElem (hj.trans hlt)) hq (beq_iff_eq.1 hc)
  omega

/-- **Expansion resolves.** With enough fuel a term over the predicates of a resolved list is
expanded, unless one of them is being unfolded, and what it becomes resolves it. -/
theorem expandFrom_resolves {callable : Callable} (hcall : callable.Reapplies)
    (hfit : inst.FittingDefinitions) (fuel : Nat) {l stack : List Nat}
    (hl : Resolved inst l) (hfuel : l.length ≤ fuel) (hstack : ∀ p ∈ l, p ∉ stack)
    (hσ : inst.Supplies σ) {t : Term} (hw : t.isWellSorted [] = true)
    (ht : ∀ p ∈ inst.predsIn t, p ∈ l) :
    ∃ u, inst.expandFrom callable fuel stack (Term.substitute σ t) = .ok u ∧
      inst.Resolves σ t u := by
  induction fuel generalizing l stack σ t with
  -- Without fuel nothing is unfolded, and there is nothing to unfold.
  | zero =>
    obtain rfl := List.length_eq_zero_iff.1 (Nat.le_zero.1 hfuel)
    exact expandBy_resolves hcall ⟨fun _ _ => rfl, fun _ hp => absurd hp List.not_mem_nil⟩ hσ t hw
      fun f hf p hp => ht p (mem_predsIn_of_predOf? hf hp)
  | succ fuel ih =>
    refine expandBy_resolves hcall ⟨fun hf args => ?_, fun {f p} hf hp => ?_⟩ hσ t hw
      fun f hf p hp => ht p (mem_predsIn_of_predOf? hf hp)
    · rw [unfoldable?, hf]
      rfl
    · -- The definition only mentions what comes before the predicate, so that predicate is not
      -- among them, and one unit of fuel less is enough.
      obtain ⟨d, l', hd, hl', hsub, hpl', hlt, hrefs⟩ := hl.before hp
      obtain ⟨q, hq, rfl⟩ := predOf?_eq_some hf
      have hdq : q.definition = some d := by rwa [definition?, hq, Option.bind_some] at hd
      obtain ⟨hparams, hbody⟩ := hfit q (List.mem_of_getElem? hq) d hdq
      have hstack' : ∀ r ∈ l', r ∉ p :: stack := by
        intro r hr hmem
        rcases List.mem_cons.1 hmem with rfl | hmem
        · exact hpl' hr
        · exact hstack r (hsub hr) hmem
      refine ⟨d, hd, hparams, beq_iff_eq.1 hbody.isBool, fun args hs hargs hun => ?_⟩
      have hsorts : args.map Term.sort = d.params.map (·.sort) := hs.trans hparams.symm
      obtain ⟨u, hu, hres⟩ := ih hl' (by omega) hstack' (supplies_zip hsorts hargs hun)
        hbody.wellSorted hrefs
      refine ⟨u, ?_, hres⟩
      rw [unfoldable?, hf]
      dsimp only
      rw [if_neg (hstack p hp), hd, Option.map_some, Option.map_some]
      dsimp only
      rw [Definition.apply_of_sorts hsorts]
      exact congrArg some hu

/-- **Safe predicates are resolved as far as quantifiers let them.** The expansion of an application
of a safe predicate to arguments without predicates mentions a predicate exactly if the definition
retains one under a quantifier. -/
theorem expand_safe {callable : Callable} (hcall : callable.Reapplies)
    (hn : DistinctNames inst.preds) (hfit : inst.FittingDefinitions) {p : Nat}
    (hp : p ∈ inst.safePredicates) {q : Predicate} (hq : inst.preds[p]? = some q) {d : Definition}
    (hd : q.definition = some d) {args : List Term} (hs : args.map Term.sort = q.sorts)
    (hw : ∀ a ∈ args, a.isWellSorted [] = true) (hfree : ∀ a ∈ args, ¬inst.Mentions a) :
    ∃ u, inst.expand (.fn q.symbol args) callable = .ok u ∧ u.IsFormula ∧
      (inst.Mentions u ↔ inst.Retains d.params none d.body) := by
  obtain ⟨l, hl, hsafe⟩ := inst.exists_resolved
  have hpred := predOf?_symbol hn hq
  have hdef : inst.definition? p = some d := by rw [definition?, hq, Option.bind_some, hd]
  have hwt : (Term.fn q.symbol args).isWellSorted [] = true := Term.isWellSorted_fn hs hw
  -- Only the application itself mentions a predicate.
  have hmem : ∀ r ∈ inst.predsIn (.fn q.symbol args), r ∈ l := by
    intro r hr
    obtain ⟨q', hq', hsym⟩ := mem_predsIn.1 hr
    rw [Term.symbols, Term.symbolsList_eq_flatMap, List.mem_cons, List.mem_flatMap] at hsym
    rcases hsym with hsym | ⟨a, ha, hsym⟩
    · rw [hn.index_eq hq' hq hsym]
      exact hsafe p hp
    · exact absurd ⟨q', List.mem_of_getElem? hq', hsym⟩ (hfree a ha)
  obtain ⟨u, hu, hres⟩ := expandFrom_resolves hcall hfit inst.preds.length hl hl.length_le
    (fun _ _ => List.not_mem_nil) (supplies_nil inst) hwt hmem
  rw [Term.substitute_nil] at hu
  refine ⟨u, hu, ⟨beq_iff_eq.2 hres.sort, hres.wellSorted⟩, hres.mentions_iff.trans ?_⟩
  -- There is nothing to be put in, so the source can only be `none`.
  rw [List.map_nil]
  constructor
  · rintro ⟨_ | x, hret, hc⟩
    · rcases (retains_application List.not_mem_nil hpred hdef).1 hret with ⟨-, h⟩ | ⟨y, a, ha, -, h⟩
      · exact h
      · -- No argument retains anything, since none mentions a predicate.
        have hmem := (List.of_mem_zip (Term.mem_of_lookupLast ha)).2
        exact absurd (h.mentions rfl) (hfree a hmem)
    · obtain ⟨a, ha, -⟩ := hc
      cases ha
  · intro h
    exact ⟨none, (retains_application List.not_mem_nil hpred hdef).2 (.inl ⟨rfl, h⟩), trivial⟩

end Instance
end Horn
