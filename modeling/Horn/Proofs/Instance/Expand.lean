import Horn.Instance.Expand
import Horn.Proofs.Act
import Horn.Proofs.Semantics.Engine
import Horn.Proofs.Semantics.Interpretation
import Horn.Proofs.Semantics.Scoped

/-!
# Expansion

Three facts about the expansion of defined predicates.

* A scoped term that applies no defined predicate outside of its quantified formulas is its own
  expansion (`expand_eq_self`).
* A memory of right expansions (`Instance.Remembers`) makes no difference: expanding with it gives
  the expansion, and leaves a memory of right expansions (`expandRemembered_eq`). Hence simplifying
  a map of definitions simplifies the expansion of each of them (`simplifyAll_eq`).
* The definitions of a part that complete a candidate are entered after the candidate, under defined
  predicates (`definitionsFrom_ok`).

What an engine refuses to call only shows in a failure: an expansion is the same for all engines,
unless it fails because a call is refused (`expand_unlessRefused`).
-/

namespace Horn

/-! ### Symbols outside of quantifiers -/

namespace Term

mutual

/-- The symbols applied in a term outside of its quantified formulas, from left to right. -/
def outer : Term → List Symbol
  | .lit _ => []
  | .bound _ _ => []
  | .fn f as => f :: outerList as
  | .op _ as => outerList as
  | .quant _ _ _ => []

/-- The symbols applied in a list of terms outside of quantified formulas. -/
def outerList : List Term → List Symbol
  | [] => []
  | a :: as => outer a ++ outerList as

end

@[simp] theorem outerList_eq_flatMap (as : List Term) : outerList as = as.flatMap outer := by
  induction as with
  | nil => rfl
  | cons a as ih => simp [outerList, ih]

mutual

theorem outer_subset_symbols : ∀ t : Term, t.outer ⊆ t.symbols
  | .lit _ => List.Subset.refl _
  | .bound _ _ => List.Subset.refl _
  | .fn f as => List.cons_subset_cons f (outerList_subset_symbolsList as)
  | .op _ as => outerList_subset_symbolsList as
  | .quant _ _ _ => List.nil_subset _

theorem outerList_subset_symbolsList : ∀ as : List Term, outerList as ⊆ symbolsList as
  | [] => List.Subset.refl _
  | a :: as => List.append_subset.2
      ⟨List.subset_append_of_subset_left _ (outer_subset_symbols a),
        List.subset_append_of_subset_right _ (outerList_subset_symbolsList as)⟩

end

end Term

namespace Term

mutual

/-- Every application of an operator outside of quantified formulas can be called again. -/
def TakenBy (callable : Callable) : Term → Prop
  | .lit _ => True
  | .bound _ _ => True
  | .fn _ as => TakenListBy callable as
  | .op f as => callable f as.length = true ∧ TakenListBy callable as
  | .quant _ _ _ => True

/-- Every application of an operator in the terms of a list can be called again. -/
def TakenListBy (callable : Callable) : List Term → Prop
  | [] => True
  | a :: as => TakenBy callable a ∧ TakenListBy callable as

end

mutual

theorem takenBy_any : ∀ t : Term, t.TakenBy .any
  | .lit _ | .bound _ _ | .quant _ _ _ => trivial
  | .fn _ as => takenListBy_any as
  | .op _ as => ⟨rfl, takenListBy_any as⟩

theorem takenListBy_any : ∀ as : List Term, TakenListBy .any as
  | [] => trivial
  | a :: as => ⟨takenBy_any a, takenListBy_any as⟩

end

mutual

/-- The applications in a well-sorted term fit their arguments. -/
theorem TakenBy.of_isWellSorted {callable : Callable} (h : callable.Reapplies) :
    ∀ {t : Term} {ctx : List TermSort}, t.isWellSorted ctx = true → t.TakenBy callable
  | .lit _, _, _ | .bound _ _, _, _ | .quant _ _ _, _, _ => trivial
  | .fn f as, ctx, hw => by
    rw [isWellSorted, Bool.and_eq_true] at hw
    exact TakenListBy.of_isWellSorted h hw.2
  | .op f as, ctx, hw => by
    rw [isWellSorted, Bool.and_eq_true] at hw
    have hcalled := h hw.1
    rw [List.length_map] at hcalled
    exact ⟨hcalled, TakenListBy.of_isWellSorted h hw.2⟩

theorem TakenListBy.of_isWellSorted {callable : Callable} (h : callable.Reapplies) :
    ∀ {as : List Term} {ctx : List TermSort},
      isWellSortedList ctx as = true → TakenListBy callable as
  | [], _, _ => trivial
  | a :: as, ctx, hw => by
    rw [isWellSortedList, Bool.and_eq_true] at hw
    exact ⟨.of_isWellSorted h hw.1, .of_isWellSorted h hw.2⟩

end

end Term

namespace Instance

variable {inst : Instance} {callable : Callable}

/-! ### Terms without defined predicates -/

/-- The term applies no defined predicate outside of its quantified formulas. -/
def Expanded (inst : Instance) (t : Term) : Prop :=
  ∀ f ∈ t.outer, ∀ stack, inst.unfoldable? stack f = none

/-- A symbol applies no predicate if all predicates have other symbols. -/
theorem predOf?_eq_none {f : Symbol} : inst.predOf? f = none ↔ ∀ q ∈ inst.preds, q.symbol ≠ f := by
  rw [predOf?, List.findIdx?_eq_none_iff]
  simp only [beq_eq_false_iff_ne]

/-- A term that applies no predicate at all applies no defined one. -/
theorem Expanded.of_free {t : Term} (h : ∀ q ∈ inst.preds, q.symbol ∉ t.symbols) :
    inst.Expanded t := by
  intro f hf stack
  have hfind : inst.predOf? f = none := by
    rw [predOf?_eq_none]
    rintro q hq rfl
    exact h q hq (Term.outer_subset_symbols t hf)
  rw [unfoldable?, hfind]

/-- Where nothing is defined, nothing is unfolded. -/
theorem unfoldable?_eq_none (h : ∀ q ∈ inst.preds, q.definition = none) (stack : List Nat)
    (f : Symbol) : inst.unfoldable? stack f = none := by
  unfold unfoldable?
  cases inst.predOf? f with
  | none => rfl
  | some p =>
    dsimp only
    split
    · rfl
    · rw [Option.map_eq_none_iff, definition?, Option.bind_eq_none_iff]
      exact fun q hq => h q (List.mem_of_getElem? hq)

theorem Expanded.of_undefined (h : ∀ q ∈ inst.preds, q.definition = none) (t : Term) :
    inst.Expanded t := fun f _ stack => unfoldable?_eq_none h stack f

/-- An application whose arguments are of the sorts of the domain is rebuilt as it is. -/
theorem reapply_self {f : Symbol} {as : List Term} (h : as.map Term.sort = f.domain) :
    reapply f as = .ok (.fn f as) := by
  unfold reapply
  split
  · rfl
  · rw [Symbol.app?, Term.castAll?_of_sorts h]
    rfl

/-- An application of an operator that can be called is rebuilt as it is. -/
theorem rebuild_self {callable : Callable} {f : Op} {as : List Term}
    (h : callable f as.length = true) : rebuild callable f as as = .ok (.op f as) := by
  rw [rebuild, if_pos h, Term.castAll?_self]

mutual

/-- Where nothing is unfolded and every call is taken, a scoped term stays as it is. -/
theorem expandBy_eq_self {unfold : Symbol → List Term → Option (Except Fault Term)} :
    ∀ (t : Term) (bound : List TermSort), t.Scoped bound → t.TakenBy callable →
      (∀ f ∈ t.outer, ∀ args, unfold f args = none) → expandBy callable unfold t = .ok t
  | .lit _, _, _, _, _ => rfl
  | .bound _ _, _, _, _, _ => rfl
  | .fn f as, bound, hs, hc, hu => by
    rw [Term.Scoped] at hs
    rw [Term.TakenBy] at hc
    rw [Term.outer, List.forall_mem_cons] at hu
    rw [expandBy, expandListBy_eq_self as bound hs.2 hc hu.2]
    dsimp only
    rw [hu.1 as]
    exact reapply_self hs.1
  | .op f as, bound, hs, hc, hu => by
    rw [Term.Scoped] at hs
    rw [Term.TakenBy] at hc
    rw [Term.outer] at hu
    rw [expandBy, expandListBy_eq_self as bound hs hc.2 hu]
    exact rebuild_self hc.1
  | .quant _ _ _, _, _, _, _ => rfl

/-- Where nothing is unfolded and every call is taken, scoped terms stay as they are. -/
theorem expandListBy_eq_self {unfold : Symbol → List Term → Option (Except Fault Term)} :
    ∀ (as : List Term) (bound : List TermSort), Term.ScopedList bound as →
      Term.TakenListBy callable as → (∀ f ∈ Term.outerList as, ∀ args, unfold f args = none) →
      expandListBy callable unfold as = .ok as
  | [], _, _, _, _ => rfl
  | a :: as, bound, hs, hc, hu => by
    rw [Term.TakenListBy] at hc
    rw [Term.outerList, List.forall_mem_append] at hu
    rw [expandListBy, expandBy_eq_self a bound hs.1 hc.1 hu.1,
      expandListBy_eq_self as bound hs.2 hc.2 hu.2]

end

/-- A scoped term without defined predicates stays as it is, whatever is being unfolded. -/
theorem expandFrom_eq_self {t : Term} {bound : List TermSort} (hs : t.Scoped bound)
    (hc : t.TakenBy callable) (h : inst.Expanded t) (fuel : Nat) (stack : List Nat) :
    inst.expandFrom callable fuel stack t = .ok t := by
  cases fuel with
  -- Without fuel nothing is unfolded anyway.
  | zero => exact expandBy_eq_self t bound hs hc fun _ _ _ => rfl
  | succ fuel =>
    refine expandBy_eq_self t bound hs hc fun f hf args => ?_
    rw [h f hf stack]
    rfl

/-- **Nothing to expand.** A scoped term without defined predicates is its own expansion. -/
theorem expand_eq_self {t : Term} {bound : List TermSort} (hs : t.Scoped bound)
    (h : inst.Expanded t) : inst.expand t = .ok t :=
  expandFrom_eq_self hs (Term.takenBy_any t) h _ _

/-- Only the predicates of an instance matter for its expansions. -/
theorem expandFrom_congr {inst' : Instance} (h : inst.preds = inst'.preds) (fuel : Nat)
    (stack : List Nat) (t : Term) :
    inst.expandFrom callable fuel stack t = inst'.expandFrom callable fuel stack t := by
  induction fuel generalizing stack t with
  | zero => rfl
  | succ fuel ih =>
    -- What is unfolded is read off the predicates.
    have hunfold : inst.unfoldable? = inst'.unfoldable? := by
      funext stack f
      simp only [unfoldable?, predOf?, definition?, h]
    rw [expandFrom, expandFrom, hunfold]
    simp only [ih]

theorem expand_congr {inst' : Instance} (h : inst.preds = inst'.preds) (t : Term) :
    inst.expand t callable = inst'.expand t callable := by
  rw [expand, expand, h]
  exact expandFrom_congr h _ _ t

/-! ### Refused calls -/

/-- An application that fits is rebuilt from arguments of the same sorts. -/
theorem rebuild_of_fits (hcall : callable.Reapplies) {f : Op} {as bs : List Term}
    (hf : f.fits (bs.map Term.sort) = true) (hs : as.map Term.sort = bs.map Term.sort) :
    rebuild callable f as bs = .ok (.op f bs) := by
  have hcalled := hcall hf
  rw [List.length_map] at hcalled
  rw [rebuild, if_pos hcalled, hs, Term.castAll?_self]

/-- The result is the other one, unless it is the failure of a refused call. -/
def UnlessRefused {α : Type} (x y : Except Fault α) : Prop := x = y ∨ x = .error .illSorted

namespace UnlessRefused

variable {α β : Type} {x y : Except Fault α}

theorem refl (x : Except Fault α) : UnlessRefused x x := .inl rfl

/-- A success does not depend on what is refused. -/
theorem ok (h : UnlessRefused x y) {a : α} (ha : x = .ok a) : y = .ok a := by
  rcases h with rfl | h
  · exact ha
  · rw [h] at ha
    cases ha

theorem bind {f g : α → Except Fault β} (h : UnlessRefused x y)
    (hfg : ∀ a, UnlessRefused (f a) (g a)) : UnlessRefused (x.bind f) (y.bind g) := by
  rcases h with rfl | rfl
  · cases x with
    | error e => exact .refl _
    | ok a => exact hfg a
  · exact .inr rfl

theorem map (h : UnlessRefused x y) (f : α → β) : UnlessRefused (x.map f) (y.map f) := by
  rcases h with rfl | rfl
  · exact .refl _
  · exact .inr rfl

theorem mapM {f g : α → Except Fault β} (h : ∀ a, UnlessRefused (f a) (g a)) {as : List α} :
    UnlessRefused (as.mapM f) (as.mapM g) := by
  induction as with
  | nil => exact .refl _
  | cons a as ih =>
    rw [List.mapM_cons, List.mapM_cons]
    exact (h a).bind fun b => ih.bind fun bs => .refl _

end UnlessRefused

theorem rebuild_unlessRefused (callable : Callable) (f : Op) (old new : List Term) :
    UnlessRefused (rebuild callable f old new) (rebuild .any f old new) := by
  unfold rebuild
  split
  · exact .refl _
  · exact .inr rfl

theorem expandBy_fn (callable : Callable)
    (unfold : Symbol → List Term → Option (Except Fault Term)) (f : Symbol) (as : List Term) :
    expandBy callable unfold (.fn f as) =
      (expandListBy callable unfold as).bind fun bs => (unfold f bs).getD (reapply f bs) := by
  rw [expandBy]
  cases expandListBy callable unfold as with
  | error e => rfl
  | ok bs => cases h : unfold f bs <;> simp only [ok_bind, h, Option.getD_none, Option.getD_some]

theorem expandBy_op (callable : Callable)
    (unfold : Symbol → List Term → Option (Except Fault Term)) (f : Op) (as : List Term) :
    expandBy callable unfold (.op f as) =
      (expandListBy callable unfold as).bind (rebuild callable f as) := by
  rw [expandBy]
  cases expandListBy callable unfold as <;> rfl

theorem expandListBy_cons (callable : Callable)
    (unfold : Symbol → List Term → Option (Except Fault Term)) (a : Term) (as : List Term) :
    expandListBy callable unfold (a :: as) = (expandBy callable unfold a).bind fun b =>
      (expandListBy callable unfold as).map fun bs => b :: bs := by
  rw [expandListBy]
  cases expandBy callable unfold a with
  | error e => rfl
  | ok b => cases expandListBy callable unfold as <;> rfl

mutual

/-- One level of expansion only fails by more refusals, if unfolding does. -/
theorem expandBy_unlessRefused {unfold unfold' : Symbol → List Term → Option (Except Fault Term)}
    (h : ∀ f args, Option.Rel UnlessRefused (unfold f args) (unfold' f args)) : ∀ t : Term,
    UnlessRefused (expandBy callable unfold t) (expandBy .any unfold' t)
  | .lit _ | .bound _ _ | .quant _ _ _ => .refl _
  | .fn f as => by
    rw [expandBy_fn, expandBy_fn]
    refine (expandListBy_unlessRefused h as).bind fun bs => ?_
    match unfold f bs, unfold' f bs, h f bs with
    | none, none, _ => exact .refl _
    | some _, some _, .some hr => exact hr
  | .op f as => by
    rw [expandBy_op, expandBy_op]
    exact (expandListBy_unlessRefused h as).bind (rebuild_unlessRefused callable f as)

theorem expandListBy_unlessRefused
    {unfold unfold' : Symbol → List Term → Option (Except Fault Term)}
    (h : ∀ f args, Option.Rel UnlessRefused (unfold f args) (unfold' f args)) :
    ∀ as : List Term, UnlessRefused (expandListBy callable unfold as) (expandListBy .any unfold' as)
  | [] => .refl _
  | a :: as => by
    rw [expandListBy_cons, expandListBy_cons]
    exact (expandBy_unlessRefused h a).bind fun b => (expandListBy_unlessRefused h as).map _

end

theorem expandFrom_unlessRefused (callable : Callable) (inst : Instance) (fuel : Nat)
    (stack : List Nat) (t : Term) :
    UnlessRefused (inst.expandFrom callable fuel stack t) (inst.expandFrom .any fuel stack t) := by
  induction fuel generalizing stack t with
  | zero => exact expandBy_unlessRefused (fun _ _ => .none) t
  | succ fuel ih =>
    refine expandBy_unlessRefused (fun f args => ?_) t
    cases inst.unfoldable? stack f with
    | none => exact .none
    -- The definition is applied in the same way, and what it becomes is expanded with less fuel.
    | some pd => exact .some ((UnlessRefused.refl _).bind fun u => ih (pd.1 :: stack) u)

/-- **Engines expand alike.** An expansion does not depend on the calls that an engine takes, unless
one of them is refused. -/
theorem expand_unlessRefused (callable : Callable) (inst : Instance) (t : Term) :
    UnlessRefused (inst.expand t callable) (inst.expand t) :=
  expandFrom_unlessRefused callable inst _ _ t

/-! ### Remembered expansions -/

/-- What the expansion of a term that is no argument of a definition does with an application. -/
def unfoldOuter (callable : Callable) (inst : Instance) (f : Symbol) (args : List Term) :
    Option (Except Fault Term) :=
  (inst.unfoldable? [] f).map fun (p, d) =>
    (d.apply args).bind (inst.expandFrom callable (inst.preds.length - 1) [p])

theorem expand_eq_expandBy (callable : Callable) (inst : Instance) (t : Term) :
    inst.expand t callable = expandBy callable (inst.unfoldOuter callable) t := by
  unfold expand
  cases hn : inst.preds.length with
  | zero =>
    -- Without predicates there is nothing to unfold.
    have hnone : inst.unfoldOuter callable = fun _ _ => none := by
      funext f args
      rw [unfoldOuter, unfoldable?_eq_none, Option.map_none]
      rw [List.length_eq_zero_iff.1 hn]
      exact List.forall_mem_nil _
    rw [expandFrom, hnone]
  | succ n =>
    rw [expandFrom]
    congr
    funext f args
    rw [unfoldOuter, hn]
    rfl

/-- The expansions of the terms of a list. -/
def expandList (callable : Callable) (inst : Instance) (as : List Term) :
    Except Fault (List Term) :=
  expandListBy callable (inst.unfoldOuter callable) as

theorem expandList_cons (a : Term) (as : List Term) :
    inst.expandList callable (a :: as) =
      (inst.expand a callable).bind fun b =>
        (inst.expandList callable as).map fun bs => b :: bs := by
  rw [expandList, expandListBy_cons, expand_eq_expandBy, expandList]

/-- An application is expanded after its arguments. -/
theorem expand_fn (f : Symbol) (as : List Term) :
    inst.expand (.fn f as) callable = (inst.expandList callable as).bind fun bs =>
      match inst.unfoldable? [] f with
      | some (p, d) => (d.apply bs).bind (inst.expandFrom callable (inst.preds.length - 1) [p])
      | none => reapply f bs := by
  rw [expand_eq_expandBy, expandBy, expandList]
  cases expandListBy callable (inst.unfoldOuter callable) as with
  | error e => rfl
  | ok bs =>
    dsimp only [Except.bind]
    rw [unfoldOuter]
    cases inst.unfoldable? [] f <;> rfl

theorem expand_op (f : Op) (as : List Term) :
    inst.expand (.op f as) callable =
      (inst.expandList callable as).bind (rebuild callable f as) := by
  rw [expand_eq_expandBy, expandBy_op, expandList]

/-- The expansions in a memory are right. -/
def Remembers (callable : Callable) (inst : Instance) (memory : List (Term × Term)) : Prop :=
  ∀ e ∈ memory, inst.expand e.1 callable = .ok e.2

theorem Remembers.congr {inst' : Instance} (h : inst.preds = inst'.preds)
    {memory : List (Term × Term)} (hm : inst.Remembers callable memory) :
    inst'.Remembers callable memory := by
  intro e he
  rw [← expand_congr h]
  exact hm e he

theorem Remembers.cons {memory : List (Term × Term)} (h : inst.Remembers callable memory)
    {t u : Term} (ht : inst.expand t callable = .ok u) :
    inst.Remembers callable ((t, u) :: memory) := by
  intro e he
  rw [List.mem_cons] at he
  rcases he with rfl | he
  · exact ht
  · exact h e he

/-- The expansion of a term may be added. -/
theorem Remembers.remember {memory : List (Term × Term)} (h : inst.Remembers callable memory)
    (t : Term) : ∃ memory', inst.Remembers callable memory' ∧
      (inst.expand t callable).map (fun u => (u, (t, u) :: memory)) =
        (inst.expand t callable).map (·, memory') := by
  cases ht : inst.expand t callable with
  | error e => exact ⟨memory, h, rfl⟩
  | ok u => exact ⟨(t, u) :: memory, h.cons ht, rfl⟩

/-- What is recalled is right. -/
theorem Remembers.recall {memory : List (Term × Term)} (h : inst.Remembers callable memory)
    {t u : Term} (hu : remembered? memory t = some u) : inst.expand t callable = .ok u := by
  obtain ⟨e, he, rfl⟩ := Option.map_eq_some_iff.1 hu
  -- The entry that is found has the term as its key.
  have hkey := List.find?_some he
  rw [beq_iff_eq] at hkey
  rw [← hkey]
  exact h e (List.mem_of_find?_eq_some he)

mutual

/-- **A memory makes no difference.** Expanding with a memory of right expansions gives the
expansion, and a memory of right expansions. -/
theorem expandRemembered_eq : ∀ (t : Term) {memory : List (Term × Term)},
    inst.Remembers callable memory → ∃ memory', inst.Remembers callable memory' ∧
      inst.expandRemembered callable t memory = (inst.expand t callable).map (·, memory')
  | .lit a, memory, h => ⟨memory, h, by rw [expand_eq_expandBy]; rfl⟩
  | .bound i s, memory, h => ⟨memory, h, by rw [expand_eq_expandBy]; rfl⟩
  | .fn f as, memory, h => by
    unfold expandRemembered
    split
    · -- A constant that is no predicate.
      next hconst =>
      rw [Bool.and_eq_true, Option.isNone_iff_eq_none, List.isEmpty_iff] at hconst
      refine ⟨memory, h, ?_⟩
      rw [expand_fn, hconst.2, unfoldable?, hconst.1]
      rfl
    · split
      · next t hrecall => exact ⟨memory, h, by rw [h.recall hrecall]; rfl⟩
      · obtain ⟨memory', h', hlist⟩ := expandRememberedList_eq as h
        rw [hlist]
        cases hbs : inst.expandList callable as with
        | error e => exact ⟨memory', h', by rw [expand_fn, hbs]; rfl⟩
        | ok bs =>
          have hnext := h'.remember (.fn f as)
          rw [expand_fn, hbs] at hnext ⊢
          exact hnext
  | .op f as, memory, h => by
    unfold expandRemembered
    split
    · next t hrecall => exact ⟨memory, h, by rw [h.recall hrecall]; rfl⟩
    · obtain ⟨memory', h', hlist⟩ := expandRememberedList_eq as h
      rw [hlist, expand_op]
      cases hbs : inst.expandList callable as with
      | error e => exact ⟨memory', h', rfl⟩
      | ok bs =>
        have hnext := h'.remember (.op f as)
        rw [expand_op, hbs] at hnext
        exact hnext
  | .quant q xs b, memory, h => ⟨memory, h, by rw [expand_eq_expandBy]; rfl⟩

/-- A memory makes no difference for lists of terms. -/
theorem expandRememberedList_eq : ∀ (as : List Term) {memory : List (Term × Term)},
    inst.Remembers callable memory → ∃ memory', inst.Remembers callable memory' ∧
      inst.expandRememberedList callable as memory = (inst.expandList callable as).map (·, memory')
  | [], memory, h => ⟨memory, h, rfl⟩
  | a :: as, memory, h => by
    obtain ⟨memory', h', ha⟩ := expandRemembered_eq a h
    rw [expandRememberedList, ha, expandList_cons]
    cases inst.expand a callable with
    | error e => exact ⟨memory', h', rfl⟩
    | ok b =>
      obtain ⟨memory'', h'', has⟩ := expandRememberedList_eq as h'
      dsimp only [Except.map, Except.bind]
      rw [has]
      refine ⟨memory'', h'', ?_⟩
      cases inst.expandList callable as <;> rfl

end

/-! ### Definitions of all predicates -/

/-- The simplified expansion of each formula of a map. -/
def simplified (engine : Engine) (inst : Instance) : Definitions → Except Fault Definitions
  | [] => .ok []
  | e :: defs =>
    (inst.expand e.2 engine.callable).bind fun u =>
      (simplified engine inst defs).map fun rest => (e.1, engine.simplify u) :: rest

/-- Simplifying a map with a memory simplifies the expansions of its formulas. -/
theorem simplifyAll_eq (engine : Engine) (defs : Definitions) {memory : List (Term × Term)}
    (h : inst.Remembers engine.callable memory) :
    ∃ memory', inst.Remembers engine.callable memory' ∧
      simplifyAll engine inst defs memory =
        (inst.simplified engine defs).map (·, memory') := by
  induction defs generalizing memory with
  | nil => exact ⟨memory, h, rfl⟩
  | cons e defs ih =>
    obtain ⟨memory', h', ht⟩ := expandRemembered_eq e.2 h
    rw [simplified, simplifyAll, ht]
    cases inst.expand e.2 engine.callable with
    | error e => exact ⟨memory', h', rfl⟩
    | ok u =>
      -- The memory grows from formula to formula, and stays right.
      obtain ⟨memory'', h'', hdefs⟩ := ih h'
      dsimp only [Except.map, Except.bind]
      rw [hdefs]
      refine ⟨memory'', h'', ?_⟩
      cases inst.simplified engine defs <;> rfl

theorem simplified_unlessRefused (engine : Engine) (inst : Instance) (defs : Definitions) :
    UnlessRefused (inst.simplified engine defs) (inst.simplified engine.lenient defs) := by
  induction defs with
  | nil => exact .refl _
  | cons e defs ih => exact (expand_unlessRefused engine.callable inst e.2).bind fun _ => ih.map _

/-- Formulas that are their own expansions are only simplified. -/
theorem simplified_append (engine : Engine) {defs : Definitions}
    (h : ∀ e ∈ defs, inst.expand e.2 engine.callable = .ok e.2) (rest : Definitions) :
    inst.simplified engine (defs ++ rest) = (inst.simplified engine rest).map
      fun rest' => (defs.map fun e => (e.1, engine.simplify e.2)) ++ rest' := by
  induction defs with
  | nil =>
    rw [List.nil_append]
    cases inst.simplified engine rest <;> rfl
  | cons e defs ih =>
    rw [List.forall_mem_cons] at h
    rw [List.cons_append, simplified, h.1, ih h.2]
    cases inst.simplified engine rest <;> rfl

/-- Simplifying keeps the predicates of a map. -/
theorem simplified_keys {engine : Engine} {defs defs' : Definitions}
    (h : inst.simplified engine defs = .ok defs') : defs'.map (·.1) = defs.map (·.1) := by
  induction defs generalizing defs' with
  | nil =>
    cases h
    rfl
  | cons e defs ih =>
    rw [simplified] at h
    -- Neither the expansion nor the rest can have failed.
    cases hu : inst.expand e.2 engine.callable with
    | error e =>
      rw [hu] at h
      cases h
    | ok u =>
      cases hrest : inst.simplified engine defs with
      | error e =>
        rw [hu, hrest] at h
        cases h
      | ok rest =>
        rw [hu, hrest] at h
        cases h
        rw [List.map_cons, List.map_cons, ih hrest]

/-- The predicate has a definition in the instance. -/
def IsDefined (inst : Instance) (p : Int) : Prop :=
  ∃ (i : Nat) (q : Predicate), p = i ∧ inst.preds[i]? = some q ∧ q.definition ≠ none

/-- The entry is a predicate with its own definition, over the formal parameters. -/
def Completes (inst : Instance) (e : Int × Term) : Prop :=
  ∃ (i : Nat) (q : Predicate) (d : Definition), e.1 = i ∧ inst.preds[i]? = some q ∧
    q.definition = some d ∧ d.apply (q.params.map Term.const) = .ok e.2

theorem Completes.isDefined {e : Int × Term} (h : inst.Completes e) : inst.IsDefined e.1 := by
  obtain ⟨i, q, d, hi, hq, hd, -⟩ := h
  refine ⟨i, q, hi, hq, ?_⟩
  rw [hd]
  exact Option.some_ne_none d

/-- A candidate is only completed by definitions of defined predicates. -/
theorem definitionsFrom_ok {candidate defs : Definitions}
    (h : inst.definitionsFrom candidate = .ok defs) :
    ∃ rest, defs = candidate ++ rest ∧ ∀ e ∈ rest, inst.Completes e := by
  unfold definitionsFrom at h
  obtain ⟨-, -, h⟩ := bind_eq_ok.1 h
  -- Each step of the loop adds at most one entry, of a defined predicate.
  refine foldlM_ok (P := fun defs => ∃ rest, defs = candidate ++ rest ∧
    ∀ e ∈ rest, inst.Completes e) h ⟨[], by simp⟩ ?_
  rintro ⟨q, i⟩ hq defs defs' ⟨rest, rfl, hrest⟩ hstep
  dsimp only at hstep
  cases hqd : q.definition with
  | none =>
    rw [hqd] at hstep
    cases hstep
    exact ⟨rest, rfl, hrest⟩
  | some d =>
    rw [hqd] at hstep
    dsimp only at hstep
    split at hstep
    · cases hstep
      exact ⟨rest, rfl, hrest⟩
    · next hhas =>
      obtain ⟨u, hu, hstep⟩ := bind_eq_ok.1 hstep
      cases hstep
      refine ⟨rest ++ [((i : Int), u)], ?_, ?_⟩
      · rw [Definitions.has] at hhas
        rw [Definitions.insert, if_neg hhas, List.append_assoc]
      · rw [List.forall_mem_append, List.forall_mem_singleton]
        exact ⟨hrest, i, q, d, rfl, List.mem_zipIdx_iff_getElem?.1 hq, hqd, hu⟩

/-- A candidate that can be completed has formulas only. -/
theorem isBool_of_definitionsFrom {candidate defs : Definitions}
    (h : inst.definitionsFrom candidate = .ok defs) : ∀ e ∈ candidate, e.2.isBool = true := by
  unfold definitionsFrom at h
  obtain ⟨_, hchecks, -⟩ := bind_eq_ok.1 h
  intro e he
  have hcheck := forM_ok hchecks e he
  dsimp only at hcheck
  -- An entry that passes the check is about a predicate and has a formula.
  by_cases hneg : e.1 < 0
  · rw [if_pos hneg] at hcheck
    cases hcheck
  · rw [if_neg hneg] at hcheck
    split at hcheck
    · cases hcheck
    · split at hcheck
      · assumption
      · cases hcheck

/-- What is collected from a candidate for a part: its completion, and if nobody holds the part any
more, the simplified expansion of that. -/
def collected (engine : Engine) (part : Instance) (candidate : Definitions) :
    Except Fault Definitions :=
  (part.definitionsFrom candidate).bind fun defs =>
    if part.isExclusive then part.simplified engine defs else .ok defs

/-- Collecting only depends on what the engine refuses by failing. -/
theorem collected_unlessRefused (engine : Engine) (part : Instance) (candidate : Definitions) :
    UnlessRefused (part.collected engine candidate) (part.collected engine.lenient candidate) := by
  refine (UnlessRefused.refl _).bind fun defs => ?_
  split
  · exact simplified_unlessRefused engine part defs
  · exact .refl _

/-- Simplifying in place answers with the simplified expansions. -/
theorem exec_simplifyInPlace (engine : Engine) (defs : Definitions)
    (h : inst.Remembers engine.callable inst.expansions) :
    ((simplifyInPlace engine defs).exec inst).1 = inst.simplified engine defs := by
  obtain ⟨memory, -, hall⟩ := simplifyAll_eq engine defs h
  rw [Act.exec_eq]
  unfold simplifyInPlace
  rw [Act.runFrom_bind_of_ok (Act.runFrom_get _), hall]
  cases inst.simplified engine defs <;> rfl

/-! ### Candidates for an instance without definitions -/

/-- A map of formulas for predicates of the instance. -/
def IsCandidate (inst : Instance) (candidate : Definitions) : Prop :=
  ∀ e ∈ candidate, (∃ p : Nat, e.1 = p ∧ p < inst.preds.length) ∧ e.2.IsFormula

/-- Being a candidate is a matter of the predicates. -/
theorem IsCandidate.congr {inst' : Instance} {candidate : Definitions}
    (h : inst.IsCandidate candidate) (hp : inst'.preds = inst.preds) :
    inst'.IsCandidate candidate := by
  unfold IsCandidate at h ⊢
  rw [hp]
  exact h

/-- A map of terms for predicates of the instance, which have truth values. -/
def IsProper (inst : Instance) (candidate : Definitions) : Prop :=
  ∀ e ∈ candidate, (∃ p : Nat, e.1 = p ∧ p < inst.preds.length) ∧ e.2.isBool = true

instance (inst : Instance) (candidate : Definitions) : Decidable (inst.IsProper candidate) :=
  decidable_of_iff
    (∀ e ∈ candidate, (0 ≤ e.1 ∧ e.1.toNat < inst.preds.length) ∧ e.2.isBool = true) <|
    forall₂_congr fun e _ => and_congr_left fun _ =>
      ⟨fun h => ⟨e.1.toNat, (Int.toNat_of_nonneg h.1).symm, h.2⟩, fun ⟨p, hp, hlt⟩ => by
        rw [hp, Int.toNat_natCast]
        exact ⟨Int.natCast_nonneg p, hlt⟩⟩

/-- A map of terms for predicates of the instance, which have truth values but may apply an operator
to arguments that do not fit it. -/
def IsDraft (inst : Instance) (candidate : Definitions) : Prop :=
  ∀ e ∈ candidate, (∃ p : Nat, e.1 = p ∧ p < inst.preds.length) ∧
    e.2.isBool = true ∧ e.2.Scoped []

theorem IsCandidate.isDraft {candidate : Definitions} (h : inst.IsCandidate candidate) :
    inst.IsDraft candidate := by
  intro e he
  obtain ⟨hhandle, hform⟩ := h e he
  exact ⟨hhandle, hform.isBool, .of_isWellSorted hform.wellSorted⟩

theorem IsDraft.isProper {candidate : Definitions} (h : inst.IsDraft candidate) :
    inst.IsProper candidate := fun e he => ⟨(h e he).1, (h e he).2.1⟩

end Instance
end Horn
