import Horn.Proofs.Semantics.Substitution

/-!
# One substitution after another

Substituting twice is substituting once, with what the second substitution makes of the terms that
the first one puts in (`Term.replace_replace`). Under binders those terms have been lifted by the
time when the second substitution reaches them; lifting and substitution can be exchanged, as long
as what is put in is lifted past all binders (`Term.replace_lift`).

Only the constants that occur in a term matter for what becomes of it (`Term.replace_congr`).
-/

namespace Horn
namespace Term

/-! ### Lifting -/

mutual

/-- Moving a term under no binders leaves it as it is. -/
theorem lift_zero (c : ℕ) : ∀ t : Term, lift 0 c t = t
  | .lit _ => rfl
  | .bound i s => by
    rw [lift]
    split <;> rfl
  | .fn f as => by rw [lift, liftList_zero c as]
  | .op f as => by rw [lift, liftList_zero c as]
  | .quant q xs b => by rw [lift, lift_zero _ b]

theorem liftList_zero (c : ℕ) : ∀ as : List Term, liftList 0 c as = as
  | [] => rfl
  | a :: as => by rw [liftList, lift_zero c a, liftList_zero c as]

end

mutual

/-- Moving a term under some binders, and then under further ones among or around these. -/
theorem lift_lift {c e : ℕ} (hc : c ≤ e) (d : ℕ) : ∀ (t : Term) (k : ℕ),
    lift d (c + k) (lift e k t) = lift (e + d) k t
  | .lit _, _ => rfl
  | .bound i s, k => by
    rw [lift, lift]
    by_cases hi : i < k
    · rw [if_pos hi, if_pos hi, lift, if_pos (by omega)]
    · rw [if_neg hi, if_neg hi, lift, if_neg (by omega), Nat.add_assoc]
  | .fn f as, k => by rw [lift, lift, lift, liftList_liftList hc d as k]
  | .op f as, k => by rw [lift, lift, lift, liftList_liftList hc d as k]
  | .quant q xs b, k => by rw [lift, lift, lift, Nat.add_assoc, lift_lift hc d b _]

theorem liftList_liftList {c e : ℕ} (hc : c ≤ e) (d : ℕ) : ∀ (as : List Term) (k : ℕ),
    liftList d (c + k) (liftList e k as) = liftList (e + d) k as
  | [], _ => rfl
  | a :: as, k => by
    rw [liftList, liftList, liftList, lift_lift hc d a k, liftList_liftList hc d as k]

end

/-! ### Substitution in a lifted term -/

variable {σ τ : Constant → Option Term}

/-- An application that stands for no constant with a value keeps its symbol. -/
theorem replace_fn_of_none {f : Symbol} {as : List Term}
    (h : ∀ x, f = x.symbol → as = [] → σ x = none) (depth : ℕ) :
    replace σ depth (.fn f as) = .fn f (replaceList σ depth as) := by
  rcases replace_fn σ depth f as with ⟨x, a, hf, has, ha, -⟩ | ⟨-, heq⟩
  · rw [h x hf has] at ha
    cases ha
  · exact heq

/-- A constant with a value becomes that value. -/
theorem replace_constant {x : Constant} {a : Term} (ha : σ x = some a) (depth : ℕ) :
    replace σ depth (.fn x.symbol []) = lift depth 0 a := by
  rcases replace_fn σ depth x.symbol [] with ⟨y, b, hy, -, hb, heq⟩ | ⟨hnone, -⟩
  · obtain rfl := Constant.symbol_injective hy
    rw [ha] at hb
    rw [heq, Option.some.inj hb]
  · rw [hnone x rfl rfl] at ha
    cases ha

mutual

/-- **Lifting and substitution** can be exchanged. -/
theorem replace_lift (σ : Constant → Option Term) (d : ℕ) : ∀ (t : Term) {c depth : ℕ}, c ≤ depth →
    replace σ (depth + d) (lift d c t) = lift d c (replace σ depth t)
  | .lit _, _, _, _ => rfl
  | .bound i s, c, depth, _ => by
    rw [replace, lift]
    split <;> rw [replace]
  | .fn f as, c, depth, hc => by
    rcases replace_fn σ depth f as with ⟨x, a, rfl, rfl, ha, heq⟩ | ⟨hnone, heq⟩
    · -- The value is lifted past all binders, at once or in two steps.
      rw [heq, lift, liftList, replace_constant ha]
      exact (lift_lift hc d a 0).symm
    · have hnone' : ∀ x, f = x.symbol → liftList d c as = [] → σ x = none := by
        rw [liftList_eq_map, List.map_eq_nil_iff]
        exact hnone
      rw [heq, lift, lift, replace_fn_of_none hnone', replaceList_liftList σ d as hc]
  | .op f as, c, depth, hc => by
    rw [replace, lift, lift, replace, replaceList_liftList σ d as hc]
  | .quant q xs b, c, depth, hc => by
    have hb := replace_lift σ d b (Nat.add_le_add_right hc xs.length)
    rw [replace, lift, lift, replace, ← hb, Nat.add_right_comm]

theorem replaceList_liftList (σ : Constant → Option Term) (d : ℕ) :
    ∀ (as : List Term) {c depth : ℕ}, c ≤ depth →
      replaceList σ (depth + d) (liftList d c as) = liftList d c (replaceList σ depth as)
  | [], _, _, _ => rfl
  | a :: as, c, depth, hc => by
    rw [liftList, replaceList, replaceList, liftList, replace_lift σ d a hc,
      replaceList_liftList σ d as hc]

end

/-! ### Two substitutions -/

/-- What two substitutions make of a constant, one after the other. -/
def andThen (σ τ : Constant → Option Term) (x : Constant) : Option Term :=
  match σ x with
  | some a => some (replace τ 0 a)
  | none => τ x

mutual

/-- **Composition.** Two substitutions, one after the other, are one substitution. -/
theorem replace_replace (σ τ : Constant → Option Term) : ∀ (t : Term) (depth : ℕ),
    replace τ depth (replace σ depth t) = replace (andThen σ τ) depth t
  | .lit _, _ => rfl
  | .bound _ _, _ => rfl
  | .fn f as, depth => by
    rcases replace_fn σ depth f as with ⟨x, a, rfl, rfl, ha, heq⟩ | ⟨hnone, heq⟩
    · have hthen : andThen σ τ x = some (replace τ 0 a) := by rw [andThen, ha]
      have hlift := replace_lift τ depth a (Nat.zero_le 0)
      rw [Nat.zero_add] at hlift
      rw [heq, replace_constant hthen, hlift]
    · rw [heq]
      rcases replace_fn τ depth f (replaceList σ depth as) with
        ⟨x, a, rfl, has, ha, heq'⟩ | ⟨hnone', heq'⟩
      · -- A constant that only the second substitution knows.
        rw [replaceList_eq_map, List.map_eq_nil_iff] at has
        subst has
        have hthen : andThen σ τ x = some a := by rw [andThen, hnone x rfl rfl, ha]
        rw [heq', replace_constant hthen]
      · have hthen : ∀ x, f = x.symbol → as = [] → andThen σ τ x = none := by
          rintro x hf rfl
          rw [andThen, hnone x hf rfl]
          exact hnone' x hf rfl
        rw [heq', replace_fn_of_none hthen, replaceList_replaceList σ τ as depth]
  | .op f as, depth => by rw [replace, replace, replace, replaceList_replaceList σ τ as depth]
  | .quant q xs b, depth => by rw [replace, replace, replace, replace_replace σ τ b _]

theorem replaceList_replaceList (σ τ : Constant → Option Term) : ∀ (as : List Term) (depth : ℕ),
    replaceList τ depth (replaceList σ depth as) = replaceList (andThen σ τ) depth as
  | [], _ => rfl
  | a :: as, depth => by
    rw [replaceList, replaceList, replaceList, replace_replace σ τ a depth,
      replaceList_replaceList σ τ as depth]

end

mutual

/-- Substitutions that agree on the constants of a term make the same of it. -/
theorem replace_congr : ∀ (t : Term), (∀ x : Constant, x.symbol ∈ t.symbols → σ x = τ x) →
    ∀ depth, replace σ depth t = replace τ depth t
  | .lit _, _, _ => rfl
  | .bound _ _, _, _ => rfl
  | .fn f as, h, depth => by
    rcases replace_fn σ depth f as with ⟨x, a, rfl, rfl, ha, heq⟩ | ⟨hnone, heq⟩
    · rw [h x List.mem_cons_self] at ha
      rw [heq, replace_constant ha]
    · have hnone' : ∀ x, f = x.symbol → as = [] → τ x = none := by
        rintro x rfl has
        rw [← h x List.mem_cons_self]
        exact hnone x rfl has
      rw [heq, replace_fn_of_none hnone',
        replaceList_congr as (fun x hx => h x (List.mem_cons_of_mem _ hx)) depth]
  | .op f as, h, depth => by rw [replace, replace, replaceList_congr as h depth]
  | .quant q xs b, h, depth => by rw [replace, replace, replace_congr b h _]

theorem replaceList_congr : ∀ (as : List Term),
    (∀ x : Constant, x.symbol ∈ symbolsList as → σ x = τ x) →
      ∀ depth, replaceList σ depth as = replaceList τ depth as
  | [], _, _ => rfl
  | a :: as, h, depth => by
    rw [symbolsList] at h
    rw [replaceList, replaceList,
      replace_congr a (fun x hx => h x (List.mem_append_left _ hx)) depth,
      replaceList_congr as (fun x hx => h x (List.mem_append_right _ hx)) depth]

end

end Term
end Horn
