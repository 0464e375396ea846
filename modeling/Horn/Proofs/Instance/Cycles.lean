import Horn.Proofs.Instance.Meaning
import Horn.Proofs.Instance.WellFormed
import Mathlib.Logic.Relation

/-!
# Which definitions stay folded

`Instance.Expands` says, rule by rule, how the expansion of a term goes on while some predicates are
being unfolded. No rule counts anything, so a derivation is an expansion that has ended. Every term
has one, with one result, and it is what the count of predicates lets `Instance.expandFrom` find:
a predicate is never unfolded inside of itself, so the predicates that are not being unfolded yet
become fewer with every unfolding (`Instance.Enough.expands_iff`).

Which applications an expansion leaves is shown by induction on its derivation
(`Expands.behindCycle`). The invariant is about the applications that no cycle leads to: none of the
predicates that are being unfolded can be reached from such a predicate, so nothing in its way is
ever left folded. What is left can therefore be reached from a predicate that reaches itself
(`Instance.expand_ends`).

It need not reach itself. The arguments of a definition have been expanded before they are put in,
and are expanded once more while the predicate is being unfolded; a cycle that is unfolded again
then may apply that predicate (`Instance.expand_leaves_acyclic`).
-/

namespace Horn

/-! ### Symbols outside of quantifiers -/

namespace Term

mutual

/-- Lifting keeps the symbols outside of quantifiers. -/
theorem outer_lift (d c : Nat) : ∀ t : Term, (lift d c t).outer = t.outer
  | .lit _ => rfl
  | .bound i s => by
    rw [lift]
    split <;> rfl
  | .fn f as => by rw [lift, outer, outer, outerList_liftList d c as]
  | .op f as => by rw [lift, outer, outer, outerList_liftList d c as]
  | .quant _ _ _ => rfl

theorem outerList_liftList (d c : Nat) : ∀ as : List Term,
    outerList (liftList d c as) = outerList as
  | [] => rfl
  | a :: as => by rw [liftList, outerList, outerList, outer_lift d c a, outerList_liftList d c as]

end

mutual

/-- A symbol outside of quantifiers was there before constants were replaced, or comes with what is
put in for one of them. -/
theorem mem_outer_replace (σ : Constant → Option Term) (depth : Nat) {f : Symbol} : ∀ t : Term,
    f ∈ (replace σ depth t).outer → f ∈ t.outer ∨ ∃ x a, σ x = some a ∧ f ∈ a.outer
  | .lit _, h => .inl h
  | .bound _ _, h => .inl h
  | .fn g as, h => by
    rcases replace_fn σ depth g as with ⟨x, a, -, -, ha, heq⟩ | ⟨-, heq⟩
    · rw [heq, outer_lift] at h
      exact .inr ⟨x, a, ha, h⟩
    · rw [heq, outer, List.mem_cons] at h
      rcases h with rfl | h
      · exact .inl List.mem_cons_self
      · exact (mem_outerList_replaceList σ depth as h).imp_left (List.mem_cons_of_mem _)
  | .op _ as, h => mem_outerList_replaceList σ depth as h
  | .quant _ _ _, h => nomatch h

theorem mem_outerList_replaceList (σ : Constant → Option Term) (depth : Nat) {f : Symbol} :
    ∀ as : List Term, f ∈ outerList (replaceList σ depth as) →
      f ∈ outerList as ∨ ∃ x a, σ x = some a ∧ f ∈ a.outer
  | [], h => .inl h
  | a :: as, h => by
    rw [replaceList, outerList, List.mem_append] at h
    rw [outerList, List.mem_append]
    rcases h with h | h
    · exact (mem_outer_replace σ depth a h).imp_left .inl
    · exact (mem_outerList_replaceList σ depth as h).imp_left .inr

end

/-- A term at another sort applies the same symbols outside of quantifiers. -/
theorem outer_cast? {s : TermSort} {t u : Term} (h : cast? s t = some u) : u.outer = t.outer := by
  unfold cast? at h
  split at h
  · obtain rfl := Option.some.inj h
    rfl
  · split at h
    case h_4 => cases h
    all_goals
      obtain rfl := Option.some.inj h
      simp [ofTruth, int, outer, outerList]

theorem outer_castAll? {ss : List TermSort} {ts us : List Term} (h : castAll? ss ts = some us) :
    outerList us = outerList ts := by
  fun_induction castAll? ss ts generalizing us with
  | case1 =>
    obtain rfl := Option.some.inj h
    rfl
  | case2 s ss t ts ih =>
    obtain ⟨u, hu, h⟩ := Option.bind_eq_some_iff.1 h
    obtain ⟨vs, hvs, h⟩ := Option.bind_eq_some_iff.1 h
    obtain rfl := Option.some.inj h
    rw [outerList, outerList, outer_cast? hu, ih hvs]
  | case3 => cases h

end Term

/-- What a definition becomes applies symbols of its body and of the arguments. -/
theorem Definition.mem_outer_apply {d : Definition} {args : List Term} {u : Term} {f : Symbol}
    (h : d.apply args = .ok u) (hf : f ∈ u.outer) :
    f ∈ d.body.outer ∨ f ∈ Term.outerList args := by
  unfold apply at h
  split at h
  · cases h
  · split at h
    · cases h
      exact .inl hf
    · split at h
      · cases h
        -- A symbol of the body after substitution is one of the body or one of a term put in.
        refine (Term.mem_outer_replace _ 0 d.body hf).imp_right ?_
        rintro ⟨x, a, ha, hfa⟩
        rw [Term.outerList_eq_flatMap, List.mem_flatMap]
        exact ⟨a, (List.of_mem_zip (Term.mem_of_lookupLast ha)).2, hfa⟩
      · cases h

namespace Instance

variable {callable : Callable} {inst : Instance} {stack : List Nat} {t u : Term}

theorem outer_reapply {f : Symbol} {args : List Term} (h : reapply f args = .ok u) :
    u.outer = f :: Term.outerList args := by
  unfold reapply at h
  split at h
  · cases h
    rfl
  · split at h
    · next t ht =>
      cases h
      obtain ⟨bs, rfl, hbs⟩ := Symbol.app?_spec ht
      rw [Term.outer, Term.outer_castAll? hbs]
    · cases h

theorem outer_rebuild {f : Op} {old new : List Term} (h : rebuild callable f old new = .ok u) :
    u.outer = Term.outerList new := by
  unfold rebuild at h
  split at h
  · split at h
    · next args hargs =>
      cases h
      rw [Term.outer, Term.outer_castAll? hargs]
    · cases h
  · cases h

/-! ### Expansion without a bound -/

/-- How the expansion of a term ends while the predicates of a stack are being unfolded. The
arguments come first, from the left; then a definition is applied to what they have become, and the
result is expanded while one more predicate is being unfolded. -/
inductive Expands (callable : Callable) (inst : Instance) :
    List Nat → Term → Except Fault Term → Prop
  | lit {stack : List Nat} (a : Literal) : Expands callable inst stack (.lit a) (.ok (.lit a))
  | bound {stack : List Nat} (i : Nat) (s : TermSort) :
      Expands callable inst stack (.bound i s) (.ok (.bound i s))
  | quant {stack : List Nat} (q : Quantifier) (xs : List Constant) (b : Term) :
      Expands callable inst stack (.quant q xs b) (.ok (.quant q xs b))
  | folded {stack : List Nat} {f : Symbol} {as bs : List Term} : as.length = bs.length →
      (∀ e ∈ as.zip bs, Expands callable inst stack e.1 (.ok e.2)) →
      inst.unfoldable? stack f = none →
      Expands callable inst stack (.fn f as) (reapply f bs)
  | unfolded {stack : List Nat} {f : Symbol} {as bs : List Term} {p : Nat} {d : Definition}
      {t : Term} {r : Except Fault Term} : as.length = bs.length →
      (∀ e ∈ as.zip bs, Expands callable inst stack e.1 (.ok e.2)) →
      inst.unfoldable? stack f = some (p, d) → d.apply bs = .ok t →
      Expands callable inst (p :: stack) t r → Expands callable inst stack (.fn f as) r
  | misfit {stack : List Nat} {f : Symbol} {as bs : List Term} {p : Nat} {d : Definition}
      {e : Fault} : as.length = bs.length →
      (∀ e ∈ as.zip bs, Expands callable inst stack e.1 (.ok e.2)) →
      inst.unfoldable? stack f = some (p, d) → d.apply bs = .error e →
      Expands callable inst stack (.fn f as) (.error e)
  | operator {stack : List Nat} {f : Op} {as bs : List Term} : as.length = bs.length →
      (∀ e ∈ as.zip bs, Expands callable inst stack e.1 (.ok e.2)) →
      Expands callable inst stack (.op f as) (rebuild callable f as bs)
  | functionArgument {stack : List Nat} {f : Symbol} {before after bs : List Term} {a : Term}
      {e : Fault} : before.length = bs.length →
      (∀ e ∈ before.zip bs, Expands callable inst stack e.1 (.ok e.2)) →
      Expands callable inst stack a (.error e) →
      Expands callable inst stack (.fn f (before ++ a :: after)) (.error e)
  | operatorArgument {stack : List Nat} {f : Op} {before after bs : List Term} {a : Term}
      {e : Fault} : before.length = bs.length →
      (∀ e ∈ before.zip bs, Expands callable inst stack e.1 (.ok e.2)) →
      Expands callable inst stack a (.error e) →
      Expands callable inst stack (.op f (before ++ a :: after)) (.error e)

/-! ### Lists of terms -/

section Lists

variable {unfold : Symbol → List Term → Option (Except Fault Term)} {as bs : List Term}

/-- A list is expanded if all its terms are. -/
theorem expandListBy_eq_ok : expandListBy callable unfold as = .ok bs ↔
    as.length = bs.length ∧ ∀ e ∈ as.zip bs, expandBy callable unfold e.1 = .ok e.2 := by
  induction as generalizing bs with
  | nil => cases bs <;> simp [expandListBy]
  | cons a as ih =>
    rw [expandListBy]
    cases bs with
    | nil =>
      -- There are terms left, and whatever becomes of the first one, the answer is not empty.
      refine iff_of_false (fun h => ?_) (fun h => Nat.succ_ne_zero _ h.1)
      split at h
      · cases h
      · split at h <;> cases h
    | cons b bs =>
      rw [List.length_cons, List.length_cons, Nat.add_left_inj, List.zip_cons_cons,
        List.forall_mem_cons, and_left_comm, ← ih]
      cases expandBy callable unfold a with
      | error e => simp
      | ok b' => cases expandListBy callable unfold as <;> simp

/-- The expansion of a list fails at the first term that cannot be expanded. -/
theorem expandListBy_eq_error {e : Fault} : expandListBy callable unfold as = .error e ↔
    ∃ before a after bs, as = before ++ a :: after ∧ before.length = bs.length ∧
      (∀ x ∈ before.zip bs, expandBy callable unfold x.1 = .ok x.2) ∧
        expandBy callable unfold a = .error e := by
  constructor
  · intro h
    -- By induction on the list: either its first term fails, or a later one does after it.
    induction as with
    | nil => cases h
    | cons a as ih =>
      rw [expandListBy] at h
      split at h
      · next he =>
        cases h
        exact ⟨[], a, as, [], rfl, rfl, List.forall_mem_nil _, he⟩
      · next b hb =>
        split at h
        · next he =>
          cases h
          obtain ⟨before, a', after, bs, rfl, hlength, hbefore, ha'⟩ := ih he
          exact ⟨a :: before, a', after, b :: bs, rfl, congrArg Nat.succ hlength,
            List.forall_mem_cons.2 ⟨hb, hbefore⟩, ha'⟩
        · cases h
  -- All terms before the failing one are expanded, so it is reached.
  · rintro ⟨before, a, after, bs, rfl, hlength, hbefore, ha⟩
    induction before generalizing bs with
    | nil => rw [List.nil_append, expandListBy, ha]
    | cons b before ih =>
      cases bs with
      | nil => cases hlength
      | cons b' bs =>
        rw [List.zip_cons_cons, List.forall_mem_cons] at hbefore
        rw [List.cons_append, expandListBy, hbefore.1,
          ih bs (Nat.succ.inj hlength) hbefore.2]

end Lists

/-! ### Counting the predicates -/

/-- There is fuel for every predicate that is not being unfolded. -/
structure Enough (inst : Instance) (fuel : Nat) (stack : List Nat) : Prop where
  nodup : stack.Nodup
  lt : ∀ p ∈ stack, p < inst.preds.length
  length : inst.preds.length ≤ fuel + stack.length

theorem enough_nil (inst : Instance) : inst.Enough inst.preds.length [] :=
  ⟨List.nodup_nil, nofun, le_rfl⟩

/-- What a symbol is unfolded to at some depth. -/
def unfolding (callable : Callable) (inst : Instance) :
    Nat → List Nat → Symbol → List Term → Option (Except Fault Term)
  | 0, _, _, _ => none
  | fuel + 1, stack, f, args => (inst.unfoldable? stack f).map fun (p, d) =>
      (d.apply args).bind (inst.expandFrom callable fuel (p :: stack))

theorem expandFrom_eq_expandBy (callable : Callable) (inst : Instance) (fuel : Nat)
    (stack : List Nat) (t : Term) : inst.expandFrom callable fuel stack t =
      expandBy callable (inst.unfolding callable fuel stack) t := by
  cases fuel <;> rfl

/-- The predicate that is unfolded is not being unfolded. -/
theorem not_mem_of_unfoldable? {f : Symbol} {p : Nat} {d : Definition}
    (h : inst.unfoldable? stack f = some (p, d)) :
    inst.predOf? f = some p ∧ p ∉ stack ∧ inst.definition? p = some d := by
  unfold unfoldable? at h
  split at h
  · cases h
  · next hp =>
    split at h
    · cases h
    · next hstack =>
      obtain ⟨d', hd, heq⟩ := Option.map_eq_some_iff.1 h
      cases heq
      exact ⟨hp, hstack, hd⟩

/-- **Every unfolding leaves fewer predicates to unfold**, so there is fuel for it. -/
theorem Enough.push {fuel : Nat} (h : inst.Enough fuel stack) {f : Symbol} {p : Nat}
    {d : Definition} (hf : inst.unfoldable? stack f = some (p, d)) :
    ∃ rest, fuel = rest + 1 ∧ inst.Enough rest (p :: stack) := by
  obtain ⟨-, hp, hd⟩ := not_mem_of_unfoldable? hf
  have hlt : p < inst.preds.length := lt_of_definition?_isSome (hd ▸ rfl)
  have hnodup : (p :: stack).Nodup := List.nodup_cons.2 ⟨hp, h.nodup⟩
  have hbound : ∀ q ∈ p :: stack, q < inst.preds.length := List.forall_mem_cons.2 ⟨hlt, h.lt⟩
  -- Different indices of the table are not more than the table has.
  have hle := (hnodup.subperm fun q hq => List.mem_range.2 (hbound q hq)).length_le
  rw [List.length_range, List.length_cons] at hle
  have hlength := h.length
  refine ⟨fuel - 1, by omega, hnodup, hbound, ?_⟩
  rw [List.length_cons]
  omega

/-- With enough fuel, whatever may be unfolded is. -/
theorem Enough.unfolding_eq {fuel : Nat} (h : inst.Enough fuel stack) (f : Symbol)
    (args : List Term) :
    inst.unfolding callable fuel stack f args = (inst.unfoldable? stack f).map fun (p, d) =>
      (d.apply args).bind (inst.expandFrom callable (fuel - 1) (p :: stack)) := by
  cases hf : inst.unfoldable? stack f with
  | none =>
    cases fuel with
    | zero => rfl
    | succ fuel => rw [unfolding, hf]; rfl
  | some pd =>
    obtain ⟨p, d⟩ := pd
    obtain ⟨rest, rfl, -⟩ := h.push hf
    rw [unfolding, hf]
    rfl

/-- What a level of expansion does with an application is derived: it is left alone if nothing is to
be unfolded, and else the definition is applied and the result expanded. -/
structure Follows (callable : Callable) (inst : Instance) (stack : List Nat)
    (unfold : Symbol → List Term → Option (Except Fault Term)) : Prop where
  folded : ∀ {f args}, unfold f args = none → inst.unfoldable? stack f = none
  unfolded : ∀ {f args r}, unfold f args = some r → ∃ p d, inst.unfoldable? stack f = some (p, d) ∧
    ((∃ t, d.apply args = .ok t ∧ Expands callable inst (p :: stack) t r) ∨
      ∃ e, d.apply args = .error e ∧ r = .error e)

mutual

/-- One level of expansion is derived, if what it unfolds is. -/
theorem Follows.expandBy {unfold : Symbol → List Term → Option (Except Fault Term)}
    (h : inst.Follows callable stack unfold) :
    ∀ t : Term, inst.Expands callable stack t (expandBy callable unfold t)
  | .lit a => .lit a
  | .bound i s => .bound i s
  | .fn f as => by
    have has := h.expandListBy as
    rw [Instance.expandBy]
    cases hlist : Instance.expandListBy callable unfold as with
    | error e =>
      -- The first argument that fails, and what those before it come to.
      obtain ⟨before, a, after, bs, rfl, hlength, hbefore, ha⟩ := expandListBy_eq_error.1 hlist
      rw [List.forall_mem_append, List.forall_mem_cons] at has
      exact .functionArgument hlength
        (fun x hx => hbefore x hx ▸ has.1 x.1 (List.of_mem_zip hx).1) (ha ▸ has.2.1)
    | ok bs =>
      obtain ⟨hlength, hbs⟩ := expandListBy_eq_ok.1 hlist
      have hall : ∀ x ∈ as.zip bs, inst.Expands callable stack x.1 (.ok x.2) := fun x hx =>
        hbs x hx ▸ has x.1 (List.of_mem_zip hx).1
      dsimp only
      -- The arguments are expanded first, so that what is unfolded is the application to them.
      cases hr : unfold f bs with
      | none => exact .folded hlength hall (h.folded hr)
      | some r =>
        obtain ⟨p, d, hpd, ⟨t, ht, hr⟩ | ⟨e, he, rfl⟩⟩ := h.unfolded hr
        · exact .unfolded hlength hall hpd ht hr
        · exact .misfit hlength hall hpd he
  | .op f as => by
    have has := h.expandListBy as
    rw [Instance.expandBy]
    cases hlist : Instance.expandListBy callable unfold as with
    | error e =>
      obtain ⟨before, a, after, bs, rfl, hlength, hbefore, ha⟩ := expandListBy_eq_error.1 hlist
      rw [List.forall_mem_append, List.forall_mem_cons] at has
      exact .operatorArgument hlength
        (fun x hx => hbefore x hx ▸ has.1 x.1 (List.of_mem_zip hx).1) (ha ▸ has.2.1)
    | ok bs =>
      obtain ⟨hlength, hbs⟩ := expandListBy_eq_ok.1 hlist
      exact .operator hlength fun x hx => hbs x hx ▸ has x.1 (List.of_mem_zip hx).1
  | .quant q xs b => .quant q xs b

/-- One level of expansion is derived for each term of a list. -/
theorem Follows.expandListBy {unfold : Symbol → List Term → Option (Except Fault Term)}
    (h : inst.Follows callable stack unfold) :
    ∀ as : List Term, ∀ a ∈ as, inst.Expands callable stack a (Instance.expandBy callable unfold a)
  | [] => List.forall_mem_nil _
  | a :: as => List.forall_mem_cons.2 ⟨h.expandBy a, h.expandListBy as⟩

end

/-- With enough fuel, every term has a derivation, with the result that is found. -/
theorem Enough.expands {fuel : Nat} (h : inst.Enough fuel stack) (t : Term) :
    inst.Expands callable stack t (inst.expandFrom callable fuel stack t) := by
  induction fuel using Nat.strong_induction_on generalizing stack t with
  | _ fuel ih =>
    rw [expandFrom_eq_expandBy]
    refine Follows.expandBy ⟨fun {f args} hf => ?_, fun {f args r} hr => ?_⟩ t
    · rw [h.unfolding_eq] at hf
      exact Option.map_eq_none_iff.1 hf
    · rw [h.unfolding_eq] at hr
      obtain ⟨⟨p, d⟩, hpd, rfl⟩ := Option.map_eq_some_iff.1 hr
      obtain ⟨rest, rfl, hrest⟩ := h.push hpd
      -- The definition is expanded with the fuel that remains, which is still enough.
      refine ⟨p, d, hpd, ?_⟩
      dsimp only
      cases d.apply args with
      | ok t => exact .inl ⟨t, rfl, ih rest (Nat.lt_succ_self rest) hrest t⟩
      | error e => exact .inr ⟨e, rfl, rfl⟩

/-- Terms that are expanded one by one are expanded as a list. -/
theorem expandListBy_of_expandFrom {fuel : Nat} {as bs : List Term}
    (hlength : as.length = bs.length)
    (h : ∀ e ∈ as.zip bs, inst.expandFrom callable fuel stack e.1 = .ok e.2) :
    expandListBy callable (inst.unfolding callable fuel stack) as = .ok bs :=
  expandListBy_eq_ok.2 ⟨hlength, fun e he => (expandFrom_eq_expandBy ..).symm.trans (h e he)⟩

/-- The first term that cannot be expanded is the one of the list. -/
theorem expandListBy_of_expandFrom_error {fuel : Nat} {before bs : List Term} (after : List Term)
    {a : Term} {e : Fault} (hlength : before.length = bs.length)
    (h : ∀ e ∈ before.zip bs, inst.expandFrom callable fuel stack e.1 = .ok e.2)
    (ha : inst.expandFrom callable fuel stack a = .error e) :
    expandListBy callable (inst.unfolding callable fuel stack) (before ++ a :: after) = .error e :=
  expandListBy_eq_error.2 ⟨before, a, after, bs, rfl, hlength,
    fun e he => (expandFrom_eq_expandBy ..).symm.trans (h e he),
    (expandFrom_eq_expandBy ..).symm.trans ha⟩

/-- A derivation has the result that is found with enough fuel. -/
theorem Expands.expandFrom_eq {r : Except Fault Term} (h : inst.Expands callable stack t r)
    {fuel : Nat} (hfuel : inst.Enough fuel stack) : inst.expandFrom callable fuel stack t = r := by
  induction h generalizing fuel with
  | lit a => cases fuel <;> rfl
  | bound i s => cases fuel <;> rfl
  | quant q xs b => cases fuel <;> rfl
  | folded hlength _ hf ih =>
    -- The arguments are expanded with the same fuel as the application.
    have hlist := expandListBy_of_expandFrom hlength fun e he => ih e he hfuel
    rw [expandFrom_eq_expandBy, expandBy, hlist]
    dsimp only
    rw [hfuel.unfolding_eq, hf]
    rfl
  | unfolded hlength _ hf happly _ ih iht =>
    have hlist := expandListBy_of_expandFrom hlength fun e he => ih e he hfuel
    obtain ⟨rest, rfl, hrest⟩ := hfuel.push hf
    rw [expandFrom_eq_expandBy, expandBy, hlist]
    dsimp only
    rw [hfuel.unfolding_eq, hf, Option.map_some]
    dsimp only
    rw [happly]
    -- One unit of fuel is spent on the definition, and one more predicate is on the stack.
    exact iht hrest
  | misfit hlength _ hf happly ih =>
    have hlist := expandListBy_of_expandFrom hlength fun e he => ih e he hfuel
    rw [expandFrom_eq_expandBy, expandBy, hlist]
    dsimp only
    rw [hfuel.unfolding_eq, hf, Option.map_some]
    dsimp only
    rw [happly]
    rfl
  | operator hlength _ ih =>
    have hlist := expandListBy_of_expandFrom hlength fun e he => ih e he hfuel
    rw [expandFrom_eq_expandBy, expandBy, hlist]
  | @functionArgument _ _ _ after _ _ _ hlength _ _ ih iha =>
    -- The first argument that fails decides, wherever it stands.
    have hlist := expandListBy_of_expandFrom_error after hlength (fun e he => ih e he hfuel)
      (iha hfuel)
    rw [expandFrom_eq_expandBy, expandBy, hlist]
  | @operatorArgument _ _ _ after _ _ _ hlength _ _ ih iha =>
    have hlist := expandListBy_of_expandFrom_error after hlength (fun e he => ih e he hfuel)
      (iha hfuel)
    rw [expandFrom_eq_expandBy, expandBy, hlist]

/-- **Expansions end, in one way**: with enough fuel, what is found is the only result that a term
has. -/
theorem Enough.expands_iff {fuel : Nat} (h : inst.Enough fuel stack) {r : Except Fault Term} :
    inst.Expands callable stack t r ↔ inst.expandFrom callable fuel stack t = r :=
  ⟨fun hr => hr.expandFrom_eq h, fun hr => hr ▸ h.expands t⟩

/-! ### Cycles -/

/-- The definition of `p` mentions `q`. -/
def Depends (inst : Instance) (p q : Nat) : Prop :=
  ∃ qs, inst.predsOfDefinition p = .ok qs ∧ q ∈ qs

/-- The predicate can reach itself through definitions. -/
def Cyclic (inst : Instance) (p : Nat) : Prop := Relation.TransGen inst.Depends p p

/-- The predicate can be reached from one that can reach itself. -/
def BehindCycle (inst : Instance) (p : Nat) : Prop :=
  ∃ c, inst.Cyclic c ∧ Relation.ReflTransGen inst.Depends c p

/-- The term applies the predicate, which is defined, outside of its quantified formulas. -/
def LeavesFolded (inst : Instance) (t : Term) (p : Nat) : Prop :=
  ∃ f ∈ t.outer, inst.predOf? f = some p ∧ (inst.definition? p).isSome

theorem leavesFolded_op {f : Op} {as : List Term} {p : Nat} :
    inst.LeavesFolded (.op f as) p ↔ ∃ a ∈ as, inst.LeavesFolded a p := by
  unfold LeavesFolded
  simp only [Term.outer, Term.outerList_eq_flatMap, List.mem_flatMap]
  constructor
  · rintro ⟨g, ⟨a, ha, hg⟩, hp⟩
    exact ⟨a, ha, g, hg, hp⟩
  · rintro ⟨a, ha, g, hg, hp⟩
    exact ⟨g, ⟨a, ha, hg⟩, hp⟩

theorem leavesFolded_fn {f : Symbol} {as : List Term} {p : Nat} :
    inst.LeavesFolded (.fn f as) p ↔ (inst.predOf? f = some p ∧ (inst.definition? p).isSome) ∨
      ∃ a ∈ as, inst.LeavesFolded a p := by
  -- The arguments apply what any operator on them does.
  rw [← leavesFolded_op (f := .and)]
  unfold LeavesFolded
  rw [Term.outer, Term.outer]
  constructor
  · rintro ⟨g, hg, hp⟩
    rcases List.mem_cons.1 hg with rfl | hg
    · exact .inl hp
    · exact .inr ⟨g, hg, hp⟩
  · rintro (hp | ⟨g, hg, hp⟩)
    · exact ⟨f, List.mem_cons_self, hp⟩
    · exact ⟨g, List.mem_cons_of_mem _ hg, hp⟩

/-- Casting arguments makes no difference to what is left. -/
theorem leavesFolded_of_reapply {f : Symbol} {bs : List Term} (h : reapply f bs = .ok u) {p : Nat} :
    inst.LeavesFolded u p ↔ inst.LeavesFolded (.fn f bs) p := by
  unfold LeavesFolded
  rw [outer_reapply h, Term.outer]

theorem leavesFolded_of_rebuild {f : Op} {as bs : List Term} (h : rebuild callable f as bs = .ok u)
    {p : Nat} : inst.LeavesFolded u p ↔ inst.LeavesFolded (.op f bs) p := by
  unfold LeavesFolded
  rw [outer_rebuild h, Term.outer]

/-- What a definition becomes applies predicates that it mentions, and those of the arguments. -/
theorem leavesFolded_of_apply {p q : Nat} {d : Definition} {bs : List Term}
    (hd : inst.definition? p = some d) (h : d.apply bs = .ok u) (hq : inst.LeavesFolded u q) :
    inst.Depends p q ∨ ∃ b ∈ bs, inst.LeavesFolded b q := by
  obtain ⟨f, hf, hpred, hdef⟩ := hq
  rcases Definition.mem_outer_apply h hf with hbody | hargs
  · obtain ⟨r, hr, hrd⟩ := Option.bind_eq_some_iff.1 hd
    refine .inl ⟨inst.predsIn d.body, ?_,
      mem_predsIn_of_predOf? (Term.outer_subset_symbols _ hbody) hpred⟩
    simp only [predsOfDefinition, pred, atHandle_natCast, hr, bind, ok_bind, hrd]
    rfl
  · rw [Term.outerList_eq_flatMap, List.mem_flatMap] at hargs
    obtain ⟨b, hb, hfb⟩ := hargs
    exact .inr ⟨b, hb, f, hfb, hpred, hdef⟩

theorem BehindCycle.depends {p q : Nat} (h : inst.BehindCycle p) (hq : inst.Depends p q) :
    inst.BehindCycle q := by
  obtain ⟨c, hc, hp⟩ := h
  exact ⟨c, hc, hp.tail hq⟩

/-- A cycle through a predicate leads to all that its definition mentions. -/
theorem behindCycle_of_reflTransGen {p q : Nat} (hq : inst.Depends p q)
    (h : Relation.ReflTransGen inst.Depends q p) : inst.BehindCycle q :=
  ⟨p, .head' hq h, .single hq⟩

/-- No predicate that is being unfolded can be reached from one that the term applies and no cycle
leads to. -/
def Clear (inst : Instance) (stack : List Nat) (t : Term) : Prop :=
  ∀ p, inst.LeavesFolded t p → ¬inst.BehindCycle p →
    ∀ s ∈ stack, ¬Relation.ReflTransGen inst.Depends p s

/-- The way stays clear in the definition of a predicate, with arguments in which everything that is
left can be reached from a cycle. -/
theorem Clear.unfold {f : Symbol} {as bs : List Term} {p : Nat} {d : Definition}
    (h : inst.Clear stack (.fn f as)) (hf : inst.unfoldable? stack f = some (p, d))
    (happly : d.apply bs = .ok t)
    (hbs : ∀ b ∈ bs, ∀ q, inst.LeavesFolded b q → inst.BehindCycle q) :
    inst.Clear (p :: stack) t := by
  obtain ⟨hpred, -, hd⟩ := not_mem_of_unfoldable? hf
  intro q hq hbehind s hs hreach
  rcases leavesFolded_of_apply hd happly hq with hdep | ⟨b, hb, hq⟩
  · rcases List.mem_cons.1 hs with rfl | hs
    · -- The way back closes a cycle.
      exact hbehind (behindCycle_of_reflTransGen hdep hreach)
    · -- The predicate of the definition leads there as well.
      have hp : ¬inst.BehindCycle p := fun hp => hbehind (hp.depends hdep)
      exact h p (leavesFolded_fn.2 (.inl ⟨hpred, hd ▸ rfl⟩)) hp s hs (.head hdep hreach)
  · exact hbehind (hbs b hb q hq)

theorem Clear.of_fn {f : Symbol} {as : List Term} (h : inst.Clear stack (.fn f as)) :
    ∀ a ∈ as, inst.Clear stack a :=
  fun a ha p hp => h p (leavesFolded_fn.2 (.inr ⟨a, ha, hp⟩))

theorem Clear.of_op {f : Op} {as : List Term} (h : inst.Clear stack (.op f as)) :
    ∀ a ∈ as, inst.Clear stack a :=
  fun a ha p hp => h p (leavesFolded_op.2 ⟨a, ha, hp⟩)

/-- Nothing is in the way of a term as long as nothing is being unfolded. -/
theorem clear_nil (inst : Instance) (t : Term) : inst.Clear [] t := fun _ _ _ => nofun

/-- Everything that is left in expanded arguments can be reached from a cycle, if that is so for
each argument with a clear way. -/
theorem Clear.arguments {as bs : List Term} (hlength : as.length = bs.length)
    (h : ∀ a ∈ as, inst.Clear stack a)
    (hbs : ∀ e ∈ as.zip bs, inst.Clear stack e.1 →
      ∀ p, inst.LeavesFolded e.2 p → inst.BehindCycle p) :
    ∀ b ∈ bs, ∀ p, inst.LeavesFolded b p → inst.BehindCycle p := by
  intro b hb
  rw [← List.map_snd_zip hlength.ge] at hb
  obtain ⟨e, he, rfl⟩ := List.mem_map.1 hb
  exact hbs e he (h e.1 (List.of_mem_zip he).1)

/-- **What is left folded can be reached from a cycle.** -/
theorem Expands.behindCycle {r : Except Fault Term} (h : inst.Expands callable stack t r) :
    inst.Clear stack t → ∀ {u}, r = .ok u → ∀ p, inst.LeavesFolded u p → inst.BehindCycle p := by
  induction h with
  | lit a | bound i s | quant q xs b =>
    rintro - u hu p ⟨f, hf, -⟩
    cases hu
    cases hf
  | @folded stack f as bs hlength _ hf ih =>
    intro hclear u hu p hp
    have hbs := Clear.arguments hlength hclear.of_fn fun e he h => ih e he h rfl
    rcases leavesFolded_fn.1 ((leavesFolded_of_reapply hu).1 hp) with ⟨hpred, hdef⟩ | ⟨b, hb, hp⟩
    · -- A defined predicate is only left alone while it is being unfolded.
      have hstack : p ∈ stack := by
        by_contra hstack
        rw [unfoldable?, hpred] at hf
        dsimp only at hf
        rw [if_neg hstack, Option.map_eq_none_iff] at hf
        rw [hf] at hdef
        cases hdef
      by_contra hbehind
      exact hclear p (leavesFolded_fn.2 (.inl ⟨hpred, hdef⟩)) hbehind p hstack .refl
    · exact hbs b hb p hp
  | @unfolded stack f as bs p d t r hlength _ hf happly _ ih iht =>
    intro hclear u hu
    have hbs := Clear.arguments hlength hclear.of_fn fun e he h => ih e he h rfl
    exact iht (hclear.unfold hf happly hbs) hu
  | @operator stack f as bs hlength _ ih =>
    intro hclear u hu p hp
    have hbs := Clear.arguments hlength hclear.of_op fun e he h => ih e he h rfl
    obtain ⟨b, hb, hp⟩ := leavesFolded_op.1 ((leavesFolded_of_rebuild hu).1 hp)
    exact hbs b hb p hp
  | misfit | functionArgument | operatorArgument => exact fun _ => nofun

/-! ### The end of an expansion -/

/-- **Inlining terminates and leaves only what a cycle leads to.** The expansion of every term ends,
in one way, and this is what expanding finds. If it yields a term, every application of a defined
predicate in it stands inside a quantifier or is one of a predicate that can be reached from a
predicate that reaches itself. -/
theorem expand_ends (callable : Callable) (inst : Instance) (t : Term) :
    (∃! r, inst.Expands callable [] t r) ∧ inst.Expands callable [] t (inst.expand t callable) ∧
      ∀ u, inst.expand t callable = .ok u → ∀ f ∈ u.outer, ∀ p, inst.predOf? f = some p →
        (inst.definition? p).isSome → inst.BehindCycle p := by
  have hexpands : inst.Expands callable [] t (inst.expand t callable) := (enough_nil inst).expands t
  refine ⟨⟨_, hexpands, fun r hr => ?_⟩, hexpands, fun u hu f hf p hp hd => ?_⟩
  · exact ((enough_nil inst).expands_iff.1 hr).symm
  · exact hexpands.behindCycle (clear_nil inst t) hu p ⟨f, hf, hp, hd⟩

/-- Where no definition reaches itself, every application outside of quantified formulas is
expanded. -/
theorem not_leavesFolded_of_acyclic (h : ∀ p, ¬inst.Cyclic p) (hu : inst.expand t callable = .ok u)
    (p : Nat) : ¬inst.LeavesFolded u p := by
  intro hp
  obtain ⟨c, hc, -⟩ := ((enough_nil inst).expands t).behindCycle (clear_nil inst t) hu p hp
  exact h c hc

/-- `A(x) := x` and `C := A(C)`: only `C` reaches itself. -/
def looping : Instance where
  name := "looping"
  preds := [
    ⟨"A", [.bool], [.bool], [0], some ⟨[⟨"A!0", .bool⟩], .const ⟨"A!0", .bool⟩⟩⟩,
    ⟨"C", [], [], [], some ⟨[], .fn ⟨"A", [.bool], .bool⟩ [.fn ⟨"C", [], .bool⟩ []]⟩⟩]
  clauses := []
  users := [[], []]
  producers := [[], []]
  holders := 0
  expansions := []

/-- The application of `A` to `C` is its own expansion, although the definition of `A` mentions no
predicate. -/
theorem expand_leaves_acyclic :
    looping.expand (.fn ⟨"A", [.bool], .bool⟩ [.fn ⟨"C", [], .bool⟩ []]) =
        .ok (.fn ⟨"A", [.bool], .bool⟩ [.fn ⟨"C", [], .bool⟩ []]) ∧
      looping.LeavesFolded (.fn ⟨"A", [.bool], .bool⟩ [.fn ⟨"C", [], .bool⟩ []]) 0 ∧
      looping.predsOfDefinition 0 = .ok [] ∧ ¬looping.Cyclic 0 := by
  refine ⟨rfl, ⟨⟨"A", [.bool], .bool⟩, List.mem_cons_self, rfl, rfl⟩, rfl, fun h => ?_⟩
  -- Nothing can be reached from `A` at all.
  obtain ⟨q, ⟨qs, hqs, hq⟩, -⟩ := Relation.TransGen.head'_iff.1 h
  cases hqs
  cases hq

end Instance
end Horn
