import Horn.Proofs.Semantics.Scoped
import Horn.Smt.Script

/-!
# Scripts assert scoped formulas

What a script asserts is a formula without any variable bound outside, and every application of a
symbol in it fits its domain. This is all that is relied on in what reads scripts
(`Reader.IsScoped`). It is shown here of the reader of the command line
(`Script.isScoped_assertions?`): local names, abbreviations with parameters, and quantifiers are all
read correctly. The notation lets some operators have fewer
arguments than make sense, such as a quotient of one number, so that formulas need not be
well-sorted.

The proof follows the reader from below: each way to build a term from scoped ones gives a scoped
one. A local name stands for a term under all binders that are around it (`Locals.Scoped`), an
abbreviation for one over its parameters (`Scope.Scoped`).
-/

namespace Horn
namespace Smt

open Term

variable {ctx : List TermSort}

/-! ### Operands -/

theorem convert?_spec {s : TermSort} {t u : Term} (h : convert? s t = some u) :
    u.sort = s ∧ (t.Scoped ctx → u.Scoped ctx) := by
  unfold convert? at h
  split at h
  · next hs =>
    obtain rfl := Option.some.inj h
    exact ⟨hs, id⟩
  -- Another sort: the term is wrapped in one of the two conversions.
  · split at h
    case h_3 => cases h
    all_goals
      obtain rfl := Option.some.inj h
      refine ⟨rfl, fun ht => ?_⟩
      rw [scoped_op, List.forall_mem_singleton]
      exact ht

theorem convertAll?_spec {ss : List TermSort} {ts us : List Term}
    (h : convertAll? ss ts = some us) :
    us.map sort = ss ∧ ((∀ t ∈ ts, t.Scoped ctx) → ∀ u ∈ us, u.Scoped ctx) := by
  fun_induction convertAll? ss ts generalizing us with
  | case1 =>
    obtain rfl := Option.some.inj h
    exact ⟨rfl, id⟩
  | case2 s ss t ts ih =>
    obtain ⟨u, hu, h⟩ := Option.bind_eq_some_iff.1 h
    obtain ⟨vs, hvs, h⟩ := Option.bind_eq_some_iff.1 h
    obtain rfl := Option.some.inj h
    -- The head is converted by itself, so the sorts agree place by place.
    obtain ⟨hs, hscoped⟩ := @convert?_spec ctx _ _ _ hu
    obtain ⟨hss, hall⟩ := ih hvs
    refine ⟨by rw [List.map_cons, hs, hss], ?_⟩
    rw [List.forall_mem_cons, List.forall_mem_cons]
    exact fun hts => ⟨hscoped hts.1, hall hts.2⟩
  | case3 => cases h

theorem convertTo?_scoped {s : TermSort} {ts us : List Term} (h : convertTo? s ts = some us)
    (hts : ∀ t ∈ ts, t.Scoped ctx) : ∀ u ∈ us, u.Scoped ctx :=
  (convertAll?_spec h).2 hts

/-- Operands stay scoped when they are fitted to an operator. -/
theorem Operands.fit?_scoped {o : Operands} {ts us : List Term} (h : o.fit? ts = some us)
    (hts : ∀ t ∈ ts, t.Scoped ctx) : ∀ u ∈ us, u.Scoped ctx := by
  -- Most operators convert all their operands, or take them as they are.
  have hkeep : ∀ {p : Prop} [Decidable p], (if p then some ts else none) = some us →
      ∀ u ∈ us, u.Scoped ctx := by
    intro p _ h
    obtain ⟨-, h⟩ := Option.ite_none_right_eq_some.1 h
    obtain rfl := Option.some.inj h
    exact hts
  cases o with
  | booleans => exact hkeep h
  | numbers => exact convertTo?_scoped (Option.ite_none_right_eq_some.1 h).2 hts
  | integers | reals | alike => exact convertTo?_scoped h hts
  | bits =>
    dsimp only [Operands.fit?] at h
    split at h
    · exact convertTo?_scoped h hts
    · cases h
  | choice =>
    cases ts with
    | nil => cases h
    | cons c branches =>
      obtain ⟨-, h⟩ := Option.ite_none_right_eq_some.1 h
      obtain ⟨vs, hvs, rfl⟩ := Option.map_eq_some_iff.1 h
      rw [List.forall_mem_cons] at hts ⊢
      exact ⟨hts.1, convertTo?_scoped hvs hts.2⟩
  | lookup | update =>
    dsimp only [Operands.fit?] at h
    split at h
    · split at h
      · exact hkeep h
      · cases h
    · cases h

/-! ### Operators -/

theorem Grouping.nestRight_scoped {f : Op} {t : Term} {ts : List Term} (ht : t.Scoped ctx)
    (hts : ∀ u ∈ ts, u.Scoped ctx) : (nestRight f t ts).Scoped ctx := by
  induction ts generalizing t with
  | nil => exact ht
  | cons u ts ih =>
    rw [List.forall_mem_cons] at hts
    rw [nestRight, scoped_op, List.forall_mem_cons, List.forall_mem_singleton]
    exact ⟨ht, ih hts.1 hts.2⟩

theorem Grouping.foldl_scoped {f : Op} {t : Term} {ts : List Term} (ht : t.Scoped ctx)
    (hts : ∀ u ∈ ts, u.Scoped ctx) :
    (ts.foldl (fun acc u => Term.op f [acc, u]) t).Scoped ctx := by
  induction ts generalizing t with
  | nil => exact ht
  | cons u ts ih =>
    rw [List.forall_mem_cons] at hts
    refine ih ?_ hts.2
    rw [scoped_op, List.forall_mem_cons, List.forall_mem_singleton]
    exact ⟨ht, hts.1⟩

/-- An operator applied to scoped operands is scoped, however it takes them. -/
theorem Grouping.build?_scoped {g : Grouping} {f : Op} {ts : List Term} {t : Term}
    (h : g.build? f ts = some t) (hts : ∀ u ∈ ts, u.Scoped ctx) : t.Scoped ctx := by
  have hop : (Term.op f ts).Scoped ctx := scoped_op.2 hts
  cases g with
  | flat =>
    obtain ⟨-, h⟩ := Option.ite_none_left_eq_some.1 h
    obtain rfl := Option.some.inj h
    exact hop
  | left =>
    dsimp only [Grouping.build?] at h
    split at h
    · cases h
    · obtain rfl := Option.some.inj h
      exact hop
    · obtain rfl := Option.some.inj h
      rw [List.forall_mem_cons] at hts
      exact foldl_scoped hts.1 hts.2
  | right =>
    dsimp only [Grouping.build?] at h
    split at h
    · obtain rfl := Option.some.inj h
      rw [List.forall_mem_cons] at hts
      exact nestRight_scoped hts.1 hts.2
    · cases h
  | chain =>
    dsimp only [Grouping.build?] at h
    split at h
    · cases h
    · split at h
      · cases h
      · obtain rfl := Option.some.inj h
        trivial
    · obtain rfl := Option.some.inj h
      exact hop
    · -- Each comparison is between two neighbours.
      obtain rfl := Option.some.inj h
      rw [scoped_op]
      intro u hu
      obtain ⟨⟨a, b⟩, hab, rfl⟩ := List.mem_map.1 hu
      obtain ⟨ha, hb⟩ := List.of_mem_zip hab
      rw [scoped_op, List.forall_mem_cons, List.forall_mem_singleton]
      exact ⟨hts a ha, hts b (List.mem_of_mem_drop hb)⟩
  | exactly n =>
    obtain ⟨-, h⟩ := Option.ite_none_right_eq_some.1 h
    obtain rfl := Option.some.inj h
    exact hop

theorem Operator.app?_scoped {f : Operator} {ts : List Term} {t : Term} (h : f.app? ts = some t)
    (hts : ∀ u ∈ ts, u.Scoped ctx) : t.Scoped ctx := by
  obtain ⟨us, hus, h⟩ := Option.bind_eq_some_iff.1 h
  have hscoped := Operands.fit?_scoped hus hts
  split at h
  · obtain rfl := Option.some.inj h
    exact scoped_op.2 hscoped
  · exact Grouping.build?_scoped h hscoped

/-! ### Names -/

/-- All local names stand for scoped terms. -/
def Locals.Scoped (ctx : List TermSort) (locals : Locals) : Prop := ∀ e ∈ locals, e.2.Scoped ctx

/-- All abbreviations have bodies over their parameters. -/
def Scope.Scoped (scope : Scope) : Prop :=
  ∀ a ∈ scope.abbreviations, a.body.Scoped (a.params.reverse.map (·.sort))

theorem Locals.Scoped.lookup {locals : Locals} (h : locals.Scoped ctx) {name : String} {t : Term}
    (ht : locals.lookup name = some t) : t.Scoped ctx := by
  obtain ⟨l₁, l₂, heq, -⟩ := List.lookup_eq_some_iff.1 ht
  refine h (name, t) ?_
  rw [heq]
  exact List.mem_append_right _ List.mem_cons_self

/-- Under a quantifier its variables are bound, and all others have moved up. -/
theorem Locals.Scoped.bind {locals : Locals} (h : locals.Scoped ctx) (xs : List Constant) :
    (locals.bind xs).Scoped (xs.reverse.map (·.sort) ++ ctx) := by
  intro e he
  rw [Locals.bind, List.mem_append] at he
  rcases he with he | he
  -- A variable that is bound here has the index of its place in the list.
  · obtain ⟨⟨x, i⟩, hx, rfl⟩ := List.mem_map.1 he
    have hi := List.mem_zipIdx_iff_getElem?.1 hx
    have hlt : i < (xs.reverse.map (·.sort)).length := by
      rw [List.length_map]
      exact (List.getElem?_eq_some_iff.1 hi).1
    dsimp only at hi ⊢
    rw [Term.Scoped, List.getElem?_append_left hlt, List.getElem?_map, hi, Option.map_some]
  -- A name from outside stands for a term that is moved up by the number of bound variables.
  · obtain ⟨⟨name, t⟩, ht, rfl⟩ := List.mem_map.1 he
    have hlift := Term.Scoped.lift (xs.reverse.map (·.sort)) ctx [] (h _ ht)
    rw [List.length_map, List.length_reverse] at hlift
    exact hlift

/-- An abbreviation with scoped arguments in place of its parameters is scoped. -/
theorem Abbreviation.expand?_scoped {a : Abbreviation}
    (ha : a.body.Scoped (a.params.reverse.map (·.sort))) {args : List Term} {t : Term}
    (h : a.expand? args = some t) (hargs : ∀ u ∈ args, u.Scoped ctx) : t.Scoped ctx := by
  obtain ⟨bs, hbs, rfl⟩ := Option.map_eq_some_iff.1 h
  obtain ⟨hsorts, hscoped⟩ := @convertAll?_spec ctx _ _ _ hbs
  have hbody : a.body.Scoped ([] ++ (bs.reverse.map Term.sort ++ ctx)) := by
    rw [List.nil_append, List.map_reverse, hsorts, ← List.map_reverse]
    exact ha.append ctx
  exact Term.Scoped.instantiateAt (fun u hu => hscoped hargs u (List.mem_reverse.1 hu)) [] hbody

theorem Scope.call?_scoped {scope : Scope} {name : String} {args : List Term} {t : Term}
    (h : scope.call? name args = some t) (hargs : ∀ u ∈ args, u.Scoped ctx) : t.Scoped ctx := by
  unfold Scope.call? at h
  dsimp only at h
  split at h
  -- A function that is declared with these very sorts, or one that the arguments can be converted
  -- to.
  · next f hf =>
    have hdomain := List.find?_some hf
    rw [beq_iff_eq] at hdomain
    obtain rfl := Option.some.inj h
    exact scoped_fn.2 ⟨hdomain.symm, hargs⟩
  · obtain ⟨f, -, hf⟩ := List.exists_of_findSome?_eq_some h
    obtain ⟨bs, hbs, rfl⟩ := Option.map_eq_some_iff.1 hf
    obtain ⟨hsorts, hscoped⟩ := @convertAll?_spec ctx _ _ _ hbs
    exact scoped_fn.2 ⟨hsorts, hscoped hargs⟩

/-- An array with scoped indices, one after the other. -/
theorem foldlM_lookup_scoped {args : List Term} {t u : Term}
    (h : args.foldlM (fun a i => (Operands.lookup.fit? [a, i]).map (.op .select)) t = some u)
    (ht : t.Scoped ctx) (hargs : ∀ a ∈ args, a.Scoped ctx) : u.Scoped ctx := by
  induction args generalizing t with
  | nil =>
    obtain rfl := Option.some.inj h
    exact ht
  | cons i args ih =>
    rw [List.forall_mem_cons] at hargs
    rw [List.foldlM_cons] at h
    obtain ⟨v, hv, h⟩ := Option.bind_eq_some_iff.1 h
    obtain ⟨us, hus, rfl⟩ := Option.map_eq_some_iff.1 hv
    -- The array so far is scoped, and so is the index that is looked up in it next.
    refine ih h (scoped_op.2 (Operands.fit?_scoped hus ?_)) hargs.2
    rw [List.forall_mem_cons, List.forall_mem_singleton]
    exact ⟨ht, hargs.1⟩

namespace Scope

variable {scope : Scope} {locals : Locals}

theorem reference?_scoped (hs : scope.Scoped) (hl : locals.Scoped ctx) {name : String} {t : Term}
    (h : scope.reference? locals name = some t) : t.Scoped ctx := by
  unfold reference? at h
  split at h
  · next u hu =>
    obtain rfl := Option.some.inj h
    exact hl.lookup hu
  · split at h
    · obtain rfl := Option.some.inj h
      trivial
    · split at h
      · obtain rfl := Option.some.inj h
        trivial
      · split at h
        · next a ha =>
          -- An abbreviation without parameters has a closed body.
          have hparams := List.find?_some ha
          rw [Bool.and_eq_true, List.isEmpty_iff] at hparams
          have hbody := hs a (List.mem_of_find?_eq_some ha)
          rw [hparams.2] at hbody
          obtain rfl := Option.some.inj h
          exact hbody.append ctx
        · split at h
          · obtain ⟨hempty, h⟩ := Option.ite_none_right_eq_some.1 h
            rw [List.isEmpty_iff] at hempty
            obtain rfl := Option.some.inj h
            exact scoped_fn.2 ⟨hempty.symm, List.forall_mem_nil _⟩
          · cases h

theorem app?_scoped (hs : scope.Scoped) (hl : locals.Scoped ctx) {name : String}
    {args : List Term} {t : Term} (h : scope.app? locals name args = some t)
    (hargs : ∀ u ∈ args, u.Scoped ctx) : t.Scoped ctx := by
  unfold app? at h
  -- A name that is applied is a local array, an abbreviation, a declared function or an operator.
  obtain ⟨-, h⟩ := Option.ite_none_left_eq_some.1 h
  split at h
  · next u hu => exact foldlM_lookup_scoped h (hl.lookup hu) hargs
  · split at h
    · next u hu =>
      obtain rfl := Option.some.inj h
      obtain ⟨a, ha, hau⟩ := List.exists_of_findSome?_eq_some hu
      exact Abbreviation.expand?_scoped (hs a (List.mem_of_mem_filter ha)) hau hargs
    · split at h
      · next u hu =>
        obtain rfl := Option.some.inj h
        exact call?_scoped hu hargs
      · obtain ⟨f, -, hf⟩ := Option.bind_eq_some_iff.1 h
        exact Operator.app?_scoped hf hargs

/-! ### Terms -/

/-- A term that is read over scoped local names is scoped. -/
def ReadsTerm (scope : Scope) (locals : Locals) (e : SExpr) : Prop :=
  ∀ (ctx : List TermSort) (t : Term), locals.Scoped ctx →
    scope.term? locals e = some t → t.Scoped ctx

def ReadsTerms (scope : Scope) (locals : Locals) (es : List SExpr) : Prop :=
  ∀ (ctx : List TermSort) (ts : List Term), locals.Scoped ctx →
    scope.terms? locals es = some ts → ∀ t ∈ ts, t.Scoped ctx

def ReadsBindings (scope : Scope) (locals : Locals) (es : List SExpr) : Prop :=
  ∀ (ctx : List TermSort) (bound : Locals), locals.Scoped ctx →
    scope.bindings? locals es = some bound → bound.Scoped ctx

/-- A quantified formula is scoped if its body is scoped under the variables that are declared. -/
theorem quantified_scoped {locals : Locals} {vars : List SExpr} {body : SExpr} {q : Quantifier}
    {t : Term} (hl : locals.Scoped ctx)
    (hbody : ∀ xs : List Constant, scope.ReadsTerm (locals.bind xs) body)
    (h : (do
      let xs ← vars.mapM scope.declared?
      let body ← scope.term? (locals.bind xs) body
      if body.isBool ∧ !xs.isEmpty then some (.quant q xs body) else none) = some t) :
    t.Scoped ctx := by
  obtain ⟨xs, -, h⟩ := Option.bind_eq_some_iff.1 h
  obtain ⟨b, hb, h⟩ := Option.bind_eq_some_iff.1 h
  obtain ⟨-, h⟩ := Option.ite_none_right_eq_some.1 h
  obtain rfl := Option.some.inj h
  exact hbody xs _ b (hl.bind xs) hb

/-- **The reader keeps to its scope.** Everything that is read over scoped local names and
abbreviations is scoped. -/
theorem readers_scoped (hs : scope.Scoped) :
    (∀ locals e, scope.ReadsTerm locals e) ∧ (∀ locals es, scope.ReadsTerms locals es) ∧
      ∀ locals es, scope.ReadsBindings locals es := by
  -- The induction is on the reader itself, with a case for each form of a term, of a list of terms
  -- and of a list of bindings.
  refine term?.mutual_induct scope.ReadsTerm scope.ReadsTerms scope.ReadsBindings
    ?numeral ?decimal ?bits ?symbol ?atom ?binding ?universal ?existential ?attributed ?word
    ?application ?list ?nil ?cons ?noBinding ?bindings ?otherBinding
  case numeral | decimal | bits =>
    intros
    intro ctx t hl h
    obtain rfl := Option.some.inj h
    trivial
  case symbol =>
    intro locals x ctx t hl h
    exact reference?_scoped hs hl h
  -- Any other atom is refused.
  case atom =>
    intro locals value h₁ h₂ h₃ h₄ ctx t hl h
    rw [term?] at h
    · cases h
    all_goals assumption
  case binding =>
    intro locals bindings body hbindings hbody ctx t hl h
    rw [term?] at h
    obtain ⟨bound, hbound, h⟩ := Option.bind_eq_some_iff.1 h
    -- The body is read over the new local names in front of the old ones, and all are scoped.
    refine hbody bound ctx t ?_ h
    intro e he
    rw [List.mem_append, List.mem_reverse] at he
    exact he.elim (hbindings ctx bound hl hbound e) (hl e)
  case universal | existential =>
    intro locals vars body hbody ctx t hl h
    rw [term?] at h
    exact quantified_scoped hl hbody h
  case attributed =>
    intro locals e tail he ctx t hl h
    rw [term?] at h
    exact he ctx t hl h
  case word =>
    intro locals name w ctx t hl h
    rw [term?] at h
    unfold bits? at h
    split at h
    · obtain ⟨-, h⟩ := Option.ite_none_right_eq_some.1 h
      obtain rfl := Option.some.inj h
      trivial
    · cases h
  -- The operands are read first; the application is built from scoped ones.
  case application =>
    intro locals f args h₁ h₂ h₃ h₄ h₅ hargs ctx t hl h
    rw [term?] at h
    · obtain ⟨ts, hts, h⟩ := Option.bind_eq_some_iff.1 h
      exact app?_scoped hs hl h (hargs ctx ts hl hts)
    all_goals assumption
  case list =>
    intro locals items h₁ h₂ h₃ h₄ h₅ h₆ ctx t hl h
    rw [term?] at h
    · cases h
    all_goals assumption
  -- The lists: each member is scoped, and so are the ones behind it.
  case nil =>
    intro locals ctx ts hl h
    obtain rfl := Option.some.inj h
    exact List.forall_mem_nil _
  case cons =>
    intro locals e es he hes ctx ts hl h
    rw [terms?] at h
    obtain ⟨t, ht, h⟩ := Option.bind_eq_some_iff.1 h
    obtain ⟨ts', hts', h⟩ := Option.bind_eq_some_iff.1 h
    obtain rfl := Option.some.inj h
    rw [List.forall_mem_cons]
    exact ⟨he ctx t hl ht, hes ctx ts' hl hts'⟩
  case noBinding =>
    intro locals ctx bound hl h
    obtain rfl := Option.some.inj h
    exact List.forall_mem_nil _
  case bindings =>
    intro locals x e rest he hrest ctx bound hl h
    rw [bindings?] at h
    obtain ⟨t, ht, h⟩ := Option.bind_eq_some_iff.1 h
    obtain ⟨bound', hbound', h⟩ := Option.bind_eq_some_iff.1 h
    obtain rfl := Option.some.inj h
    unfold Locals.Scoped
    rw [List.forall_mem_cons]
    exact ⟨he ctx t hl ht, hrest ctx bound' hl hbound'⟩
  case otherBinding =>
    intro locals e rest h₁ ctx bound hl h
    rw [bindings?] at h
    · cases h
    all_goals assumption

/-- The body of an abbreviation is scoped over its parameters. -/
theorem bodyOf?_scoped (hs : scope.Scoped) {params : List Constant} {range : TermSort} {e : SExpr}
    {t : Term} (h : scope.bodyOf? params range e = some t) :
    t.Scoped (params.reverse.map (·.sort)) := by
  obtain ⟨u, hu, ht⟩ := Option.bind_eq_some_iff.1 h
  have hlocals : Locals.Scoped [] [] := List.forall_mem_nil _
  have hbound := hlocals.bind params
  rw [List.append_nil] at hbound
  exact (convert?_spec ht).2 ((readers_scoped hs).1 _ e _ u hbound hu)

theorem addAbbreviation?_scoped (hs : scope.Scoped) {a : Abbreviation}
    (ha : a.body.Scoped (a.params.reverse.map (·.sort))) {scope' : Scope}
    (h : scope.addAbbreviation? a = some scope') : scope'.Scoped := by
  obtain ⟨-, h⟩ := Option.ite_none_left_eq_some.1 h
  obtain rfl := Option.some.inj h
  unfold Scope.Scoped
  rw [List.forall_mem_append, List.forall_mem_singleton]
  exact ⟨hs, ha⟩

theorem addFunction?_scoped (hs : scope.Scoped) {f : Symbol} {scope' : Scope}
    (h : scope.addFunction? f = some scope') : scope'.Scoped := by
  obtain ⟨-, h⟩ := Option.ite_none_left_eq_some.1 h
  obtain rfl := Option.some.inj h
  exact hs

theorem addSort?_scoped (hs : scope.Scoped) {name : String} {scope' : Scope}
    (h : scope.addSort? name = some scope') : scope'.Scoped := by
  obtain ⟨-, h⟩ := Option.ite_none_left_eq_some.1 h
  obtain rfl := Option.some.inj h
  exact hs

end Scope

/-! ### Scripts -/

/-- What a script has reached is scoped: the abbreviations are, and nothing is asserted about
variables that are not bound. -/
structure Context.Scoped (c : Context) : Prop where
  scope : c.scope.Scoped
  assertions : ∀ t ∈ c.assertions, t.Scoped []

theorem Context.initial_scoped : Context.initial.Scoped :=
  ⟨List.forall_mem_nil _, List.forall_mem_nil _⟩

variable {c c' : Context}

/-- Another scope, and the same assertions. -/
theorem Context.Scoped.rescope (hc : c.Scoped) {scope? : Option Scope}
    (hscope : ∀ scope, scope? = some scope → scope.Scoped)
    (h : (scope?.map fun scope => { c with scope }) = some c') : c'.Scoped := by
  obtain ⟨scope, hscope', rfl⟩ := Option.map_eq_some_iff.1 h
  exact ⟨hscope scope hscope', hc.assertions⟩

theorem Context.Scoped.assert? (hc : c.Scoped) {e : SExpr} (h : c.assert? e = some c') :
    c'.Scoped := by
  obtain ⟨t, ht, h⟩ := Option.bind_eq_some_iff.1 h
  have hscoped : t.Scoped [] :=
    (Scope.readers_scoped hc.scope).1 [] e [] t (List.forall_mem_nil _) ht
  have hc₁ : Context.Scoped { c with assertions := c.assertions ++ [t] } := by
    refine ⟨hc.scope, ?_⟩
    rw [List.forall_mem_append, List.forall_mem_singleton]
    exact ⟨hc.assertions, hscoped⟩
  obtain ⟨-, hnamed⟩ := Option.ite_none_left_eq_some.1 h
  split at hnamed
  · next name _ =>
    -- The name of a formula is an abbreviation without parameters.
    exact hc₁.rescope (fun scope hscope =>
      Scope.addAbbreviation?_scoped (a := ⟨name, [], t⟩) hc.scope hscoped hscope) hnamed
  · obtain rfl := Option.some.inj hnamed
    exact hc₁

/-- A command keeps what the script has reached scoped. -/
theorem Context.Scoped.run? (hc : c.Scoped) {name : String} {args : List SExpr}
    (h : c.run? name args = some c') : c'.Scoped := by
  unfold Context.run? at h
  split at h
  -- Declarations: nothing that is known so far changes.
  case h_1 =>
    split at h
    · obtain ⟨domain, -, h⟩ := Option.bind_eq_some_iff.1 h
      obtain ⟨range, -, h⟩ := Option.bind_eq_some_iff.1 h
      exact hc.rescope (fun _ => Scope.addFunction?_scoped hc.scope) h
    · cases h
  case h_2 =>
    split at h
    · obtain ⟨range, -, h⟩ := Option.bind_eq_some_iff.1 h
      exact hc.rescope (fun _ => Scope.addFunction?_scoped hc.scope) h
    · cases h
  case h_3 =>
    split at h
    case h_3 => cases h
    all_goals exact hc.rescope (fun _ => Scope.addSort?_scoped hc.scope) h
  -- Definitions: their bodies are over their parameters.
  case h_4 =>
    split at h
    · obtain ⟨params, -, h⟩ := Option.bind_eq_some_iff.1 h
      obtain ⟨range, -, h⟩ := Option.bind_eq_some_iff.1 h
      obtain ⟨body, hbody, h⟩ := Option.bind_eq_some_iff.1 h
      exact hc.rescope (fun _ => Scope.addAbbreviation?_scoped hc.scope
        (Scope.bodyOf?_scoped hc.scope hbody)) h
    · cases h
  case h_5 =>
    split at h
    · next f range body =>
      obtain ⟨range, -, h⟩ := Option.bind_eq_some_iff.1 h
      obtain ⟨body, hbody, h⟩ := Option.bind_eq_some_iff.1 h
      have hclosed := Scope.bodyOf?_scoped hc.scope hbody
      exact hc.rescope (fun _ => Scope.addAbbreviation?_scoped (a := ⟨f, [], body⟩) hc.scope
        hclosed) h
    · cases h
  case h_6 =>
    split at h
    · exact hc.assert? h
    · cases h
  -- Other commands have no effect.
  case h_7 =>
    obtain rfl := Option.some.inj h
    exact hc

/-- **A run of a script** keeps scoped what has been reached, and what can be gone back to. -/
theorem runAll?_scoped {saved : List Context} {commands : List SExpr} (hc : c.Scoped)
    (hsaved : ∀ d ∈ saved, d.Scoped) (h : runAll? c saved commands = some c') : c'.Scoped := by
  fun_induction runAll? c saved commands with
  | case1 c saved =>
    obtain rfl := Option.some.inj h
    exact hc
  | case2 =>
    obtain rfl := Option.some.inj h
    exact hc
  | case3 c saved args rest ih =>
    -- What is gone back to later is the context of now.
    obtain ⟨n, -, h⟩ := Option.bind_eq_some_iff.1 h
    refine ih n hc ?_ h
    rw [List.forall_mem_append]
    exact ⟨fun d hd => List.eq_of_mem_replicate hd ▸ hc, hsaved⟩
  | case4 c saved args rest ih₁ ih₂ =>
    obtain ⟨n, -, h⟩ := Option.bind_eq_some_iff.1 h
    cases n with
    | zero => exact ih₁ hc hsaved h
    | succ n =>
      obtain ⟨d, hd, h⟩ := Option.bind_eq_some_iff.1 h
      exact ih₂ n d (hsaved d (List.mem_of_getElem? hd))
        (fun d' hd' => hsaved d' (List.mem_of_mem_drop hd')) h
  | case5 c saved name args rest h₁ h₂ h₃ ih =>
    obtain ⟨d, hd, h⟩ := Option.bind_eq_some_iff.1 h
    exact ih d (hc.run? hd) hsaved h
  | case6 => cases h

/-- No variable of an assertion that is read is bound outside of it, and every application of a
symbol fits its domain. -/
def Reader.IsScoped (read : Reader) : Prop :=
  ∀ ⦃text : String⦄ ⦃ts : List Term⦄, read text = some ts → ∀ t ∈ ts, t.Scoped []

/-- **Assertions are scoped.** -/
theorem Script.isScoped_assertions? : Reader.IsScoped Script.assertions? := by
  intro text ts h
  obtain ⟨commands, -, h⟩ := Option.bind_eq_some_iff.1 h
  obtain ⟨c, hc, rfl⟩ := Option.map_eq_some_iff.1 h
  exact (runAll?_scoped Context.initial_scoped (List.forall_mem_nil _) hc).assertions

end Smt
end Horn
