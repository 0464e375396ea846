import Horn.Proofs.Semantics.Scoped

/-!
# Substitution in well-sorted terms

A substitution that puts terms of the right sorts in (`Term.IsSubstitutionIn`, and
`Term.IsSubstitution` for closed terms) keeps sorts and well-sortedness
(`Term.IsSubstitutionIn.sort_replace`, `Term.IsSubstitutionIn.isWellSorted_replace`), and the
symbols of the result are known exactly (`Term.IsSubstitutionIn.mem_symbols_replace`): the constants
that are replaced go, and the symbols of what is put in for a constant that occurs come. What is put
in is lifted past the binders on the way; it keeps its symbols and stays well-sorted
(`Term.symbols_lift`, `Term.isWellSorted_lift`).
-/

namespace Horn

/-- A constant is determined by its symbol. -/
theorem Constant.symbol_injective : Function.Injective Constant.symbol := by
  rintro ⟨name, sort⟩ ⟨name', sort'⟩ h
  cases h
  rfl

namespace Term

/-! ### Closed terms -/

mutual

/-- A term does not change when it is moved under binders, if all its variables are bound closer. -/
theorem lift_eq_self (d : Nat) : ∀ (t : Term) (ctx : List TermSort),
    t.isWellSorted ctx = true → lift d ctx.length t = t
  | .lit _, _, _ => rfl
  | .bound i s, ctx, h => by
    rw [isWellSorted, beq_iff_eq] at h
    -- The variable is bound inside.
    rw [lift, if_pos (List.getElem?_eq_some_iff.1 h).1]
  | .fn f as, ctx, h => by
    rw [isWellSorted, Bool.and_eq_true] at h
    rw [lift, liftList_eq_self d as ctx h.2]
  | .op f as, ctx, h => by
    rw [isWellSorted, Bool.and_eq_true] at h
    rw [lift, liftList_eq_self d as ctx h.2]
  | .quant q xs b, ctx, h => by
    rw [isWellSorted, Bool.and_eq_true] at h
    -- Below the quantifier there are as many more bound variables as it binds.
    have hb := lift_eq_self d b _ h.2
    rw [List.length_append, List.length_map, List.length_reverse, Nat.add_comm] at hb
    rw [lift, hb]

theorem liftList_eq_self (d : Nat) : ∀ (as : List Term) (ctx : List TermSort),
    isWellSortedList ctx as = true → liftList d ctx.length as = as
  | [], _, _ => rfl
  | a :: as, ctx, h => by
    rw [isWellSortedList, Bool.and_eq_true] at h
    rw [liftList, lift_eq_self d a ctx h.1, liftList_eq_self d as ctx h.2]

end

mutual

/-- A well-sorted term is well-sorted under more binders, too. -/
theorem isWellSorted_append (outer : List TermSort) : ∀ (t : Term) (ctx : List TermSort),
    t.isWellSorted ctx = true → t.isWellSorted (ctx ++ outer) = true
  | .lit _, _, _ => rfl
  | .bound i s, ctx, h => by
    rw [isWellSorted, beq_iff_eq] at h ⊢
    rw [List.getElem?_append_left (List.getElem?_eq_some_iff.1 h).1, h]
  | .fn f as, ctx, h => by
    rw [isWellSorted, Bool.and_eq_true] at h ⊢
    exact ⟨h.1, isWellSortedList_append outer as ctx h.2⟩
  | .op f as, ctx, h => by
    rw [isWellSorted, Bool.and_eq_true] at h ⊢
    exact ⟨h.1, isWellSortedList_append outer as ctx h.2⟩
  | .quant q xs b, ctx, h => by
    rw [isWellSorted, Bool.and_eq_true] at h ⊢
    rw [← List.append_assoc]
    exact ⟨h.1, isWellSorted_append outer b _ h.2⟩

theorem isWellSortedList_append (outer : List TermSort) :
    ∀ (as : List Term) (ctx : List TermSort),
      isWellSortedList ctx as = true → isWellSortedList (ctx ++ outer) as = true
  | [], _, _ => rfl
  | a :: as, ctx, h => by
    rw [isWellSortedList, Bool.and_eq_true] at h ⊢
    exact ⟨isWellSorted_append outer a ctx h.1, isWellSortedList_append outer as ctx h.2⟩

end

/-- A closed term is well-sorted everywhere. -/
theorem isWellSorted_of_closed {t : Term} (h : t.isWellSorted [] = true) (ctx : List TermSort) :
    t.isWellSorted ctx = true := isWellSorted_append ctx t [] h

/-! ### Lifting -/

mutual

/-- Lifting keeps the symbols. -/
theorem symbols_lift (d c : Nat) : ∀ t : Term, (lift d c t).symbols = t.symbols
  | .lit _ => rfl
  | .bound i s => by
    rw [lift]
    split <;> rfl
  | .fn f as => by rw [lift, symbols, symbols, symbolsList_liftList d c as]
  | .op f as => by rw [lift, symbols, symbols, symbolsList_liftList d c as]
  | .quant q xs b => by rw [lift, symbols, symbols, symbols_lift d _ b]

theorem symbolsList_liftList (d c : Nat) : ∀ as : List Term,
    symbolsList (liftList d c as) = symbolsList as
  | [] => rfl
  | a :: as => by
    rw [liftList, symbolsList, symbolsList, symbols_lift d c a, symbolsList_liftList d c as]

end

mutual

/-- A well-sorted term stays well-sorted when further binders come in between. -/
theorem isWellSorted_lift (mid outer : List TermSort) : ∀ (t : Term) (inner : List TermSort),
    t.isWellSorted (inner ++ outer) = true →
      (lift mid.length inner.length t).isWellSorted (inner ++ (mid ++ outer)) = true
  | .lit _, _, _ => rfl
  | .bound i s, inner, h => by
    -- Well-sorted variables are scoped variables.
    rw [isWellSorted, beq_iff_eq] at h
    have hlift := Scoped.lift mid outer inner (t := .bound i s) h
    rw [lift] at hlift ⊢
    by_cases hi : i < inner.length
    · rw [if_pos hi] at hlift ⊢
      exact beq_iff_eq.2 hlift
    · rw [if_neg hi] at hlift ⊢
      exact beq_iff_eq.2 hlift
  | .fn f as, inner, h => by
    rw [isWellSorted, Bool.and_eq_true] at h
    rw [lift, isWellSorted, sorts_liftList, Bool.and_eq_true]
    exact ⟨h.1, isWellSortedList_liftList mid outer as inner h.2⟩
  | .op f as, inner, h => by
    rw [isWellSorted, Bool.and_eq_true] at h
    rw [lift, isWellSorted, sorts_liftList, Bool.and_eq_true]
    exact ⟨h.1, isWellSortedList_liftList mid outer as inner h.2⟩
  | .quant q xs b, inner, h => by
    rw [isWellSorted, Bool.and_eq_true, ← List.append_assoc] at h
    have hb := isWellSorted_lift mid outer b _ h.2
    rw [List.length_append, List.length_map, List.length_reverse, Nat.add_comm,
      List.append_assoc] at hb
    rw [lift, isWellSorted, isBool, sort_lift, Bool.and_eq_true]
    exact ⟨h.1, hb⟩

theorem isWellSortedList_liftList (mid outer : List TermSort) :
    ∀ (as : List Term) (inner : List TermSort), isWellSortedList (inner ++ outer) as = true →
      isWellSortedList (inner ++ (mid ++ outer)) (liftList mid.length inner.length as) = true
  | [], _, _ => rfl
  | a :: as, inner, h => by
    rw [isWellSortedList, Bool.and_eq_true] at h
    rw [liftList, isWellSortedList, Bool.and_eq_true]
    exact ⟨isWellSorted_lift mid outer a inner h.1,
      isWellSortedList_liftList mid outer as inner h.2⟩

end

/-! ### Constants -/

theorem constant?_eq_some {f : Symbol} {as : List Term} {x : Constant} :
    constant? f as = some x ↔ f = x.symbol ∧ as = [] := by
  obtain ⟨name, domain, range⟩ := f
  obtain ⟨name', sort'⟩ := x
  unfold constant?
  constructor
  · intro h
    split at h
    · next hempty =>
      rw [Bool.and_eq_true, List.isEmpty_iff, List.isEmpty_iff] at hempty
      obtain ⟨rfl, rfl⟩ := hempty
      cases h
      exact ⟨rfl, rfl⟩
    · cases h
  · rintro ⟨hf, rfl⟩
    cases hf
    rfl

/-- What replacing constants does with an application: a constant with a value becomes that value,
every other application keeps its symbol. -/
theorem replace_fn (σ : Constant → Option Term) (depth : Nat) (f : Symbol) (as : List Term) :
    (∃ x a, f = x.symbol ∧ as = [] ∧ σ x = some a ∧
      replace σ depth (.fn f as) = lift depth 0 a) ∨
    ((∀ x, f = x.symbol → as = [] → σ x = none) ∧
      replace σ depth (.fn f as) = .fn f (replaceList σ depth as)) := by
  rw [replace]
  cases ha : (constant? f as).bind σ with
  | some a =>
    obtain ⟨x, hx, hxa⟩ := Option.bind_eq_some_iff.1 ha
    obtain ⟨hf, has⟩ := constant?_eq_some.1 hx
    exact .inl ⟨x, a, hf, has, hxa, rfl⟩
  | none =>
    refine .inr ⟨fun x hf has => ?_, rfl⟩
    exact Option.bind_eq_none_iff.1 ha x (constant?_eq_some.2 ⟨hf, has⟩)

mutual

/-- Where no constant has a value, nothing is replaced. -/
theorem replace_eq_self {σ : Constant → Option Term} (h : ∀ x, σ x = none) (depth : Nat) :
    ∀ t : Term, replace σ depth t = t
  | .lit _ => rfl
  | .bound _ _ => rfl
  | .fn f as => by
    rcases replace_fn σ depth f as with ⟨x, a, -, -, ha, -⟩ | ⟨-, heq⟩
    · -- No constant has a value to be replaced by.
      rw [h x] at ha
      cases ha
    · rw [heq, replaceList_eq_self h depth as]
  | .op f as => by rw [replace, replaceList_eq_self h depth as]
  | .quant q xs b => by rw [replace, replace_eq_self h _ b]

theorem replaceList_eq_self {σ : Constant → Option Term} (h : ∀ x, σ x = none) (depth : Nat) :
    ∀ as : List Term, replaceList σ depth as = as
  | [] => rfl
  | a :: as => by rw [replaceList, replace_eq_self h depth a, replaceList_eq_self h depth as]

end

theorem lookupLast_cons (x : Constant) (a : Term) (σ : List (Constant × Term)) (y : Constant) :
    lookupLast ((x, a) :: σ) y = (lookupLast σ y).or (if x = y then some a else none) := by
  unfold lookupLast
  rw [List.reverse_cons, List.find?_append, List.find?_singleton]
  cases σ.reverse.find? (·.1 == y) with
  | some e => rfl
  | none =>
    by_cases h : x = y <;> simp [h]

/-- Exactly the constants of a list of pairs have a value. -/
theorem lookupLast_eq_none {σ : List (Constant × Term)} {y : Constant} :
    lookupLast σ y = none ↔ y ∉ σ.map (·.1) := by
  induction σ with
  | nil => exact iff_of_true rfl List.not_mem_nil
  | cons e σ ih =>
    obtain ⟨x, a⟩ := e
    rw [lookupLast_cons, Option.or_eq_none_iff, ih, List.map_cons, List.mem_cons, not_or, and_comm]
    simp [eq_comm]

/-- A constant has the value of one of its pairs. -/
theorem mem_of_lookupLast {σ : List (Constant × Term)} {y : Constant} {a : Term}
    (h : lookupLast σ y = some a) : (y, a) ∈ σ := by
  unfold lookupLast at h
  obtain ⟨e, he, rfl⟩ := Option.map_eq_some_iff.1 h
  have hkey := List.find?_some he
  rw [beq_iff_eq] at hkey
  rw [← hkey]
  exact List.mem_reverse.1 (List.mem_of_find?_eq_some he)

/-! ### Sorts -/

/-- What a substitution puts in is closed and of the sort of the constant. -/
structure IsSubstitution (σ : Constant → Option Term) : Prop where
  sort : ∀ {x a}, σ x = some a → a.sort = x.sort
  wellSorted : ∀ {x a}, σ x = some a → a.isWellSorted [] = true

/-- What a substitution puts in is well-sorted among the bound variables around the term, and of the
sort of the constant. -/
structure IsSubstitutionIn (ctx : List TermSort) (σ : Constant → Option Term) : Prop where
  sort : ∀ {x a}, σ x = some a → a.sort = x.sort
  wellSorted : ∀ {x a}, σ x = some a → a.isWellSorted ctx = true

/-- Closed terms may be put in anywhere. -/
theorem IsSubstitution.inContext {σ : Constant → Option Term} (h : IsSubstitution σ)
    (ctx : List TermSort) : IsSubstitutionIn ctx σ :=
  ⟨h.sort, fun ha => isWellSorted_of_closed (h.wellSorted ha) ctx⟩

/-- Terms of the sorts of some constants are paired with constants of their sort. -/
theorem sort_of_mem_zip {xs : List Constant} {as : List Term}
    (hs : as.map Term.sort = xs.map (·.sort)) : ∀ e ∈ xs.zip as, e.2.sort = e.1.sort := by
  intro e he
  -- The constant and its term stand at the same position.
  obtain ⟨i, hi⟩ := List.getElem?_of_mem he
  obtain ⟨hx, ha⟩ := List.getElem?_zip_eq_some.1 hi
  have hsort : (as.map Term.sort)[i]? = (xs.map (·.sort))[i]? := by rw [hs]
  rw [List.getElem?_map, List.getElem?_map, hx, ha] at hsort
  exact Option.some.inj hsort

/-- Terms of the sorts of some constants may be put in for them. -/
theorem isSubstitutionIn_zip {xs : List Constant} {as : List Term} {ctx : List TermSort}
    (hs : as.map Term.sort = xs.map (·.sort)) (hw : ∀ a ∈ as, a.isWellSorted ctx = true) :
    IsSubstitutionIn ctx (lookupLast (xs.zip as)) :=
  ⟨fun h => sort_of_mem_zip hs _ (mem_of_lookupLast h),
    fun h => hw _ (List.of_mem_zip (mem_of_lookupLast h)).2⟩

/-- Closed terms of the sorts of some constants may be put in for them. -/
theorem isSubstitution_zip {xs : List Constant} {as : List Term}
    (hs : as.map Term.sort = xs.map (·.sort)) (hw : ∀ a ∈ as, a.isWellSorted [] = true) :
    IsSubstitution (lookupLast (xs.zip as)) :=
  ⟨(isSubstitutionIn_zip hs hw).sort, (isSubstitutionIn_zip hs hw).wellSorted⟩

variable {σ : Constant → Option Term} {ctx : List TermSort}

/-- Closed terms are put in as they are. -/
theorem IsSubstitution.lift (h : IsSubstitution σ) {x : Constant} {a : Term} (ha : σ x = some a)
    (depth : Nat) : Term.lift depth 0 a = a := lift_eq_self depth a [] (h.wellSorted ha)

namespace IsSubstitutionIn

mutual

/-- Replacing constants keeps the sort. -/
theorem sort_replace (h : IsSubstitutionIn ctx σ) (depth : Nat) : ∀ t : Term,
    (replace σ depth t).sort = t.sort
  | .lit _ => rfl
  | .bound _ _ => rfl
  | .fn f as => by
    rcases replace_fn σ depth f as with ⟨x, a, rfl, rfl, ha, heq⟩ | ⟨-, heq⟩
    · rw [heq, sort_lift, h.sort ha]
      rfl
    · rw [heq]
      rfl
  | .op f as => by
    rw [replace, Term.sort, Term.sort, sortHeads_eq_map, sortHeads_eq_map,
      sorts_replaceList h depth as]
  | .quant _ _ _ => rfl

/-- Replacing constants keeps the sorts of all terms of a list. -/
theorem sorts_replaceList (h : IsSubstitutionIn ctx σ) (depth : Nat) : ∀ as : List Term,
    (replaceList σ depth as).map Term.sort = as.map Term.sort
  | [] => rfl
  | a :: as => by
    rw [replaceList, List.map_cons, List.map_cons, sort_replace h depth a,
      sorts_replaceList h depth as]

end

mutual

/-- **Substitution keeps terms well-sorted.** -/
theorem isWellSorted_replace (h : IsSubstitutionIn ctx σ) :
    ∀ (t : Term) (inner : List TermSort), t.isWellSorted (inner ++ ctx) = true →
      (replace σ inner.length t).isWellSorted (inner ++ ctx) = true
  | .lit _, _, ht => ht
  | .bound _ _, _, ht => ht
  | .fn f as, inner, ht => by
    rw [isWellSorted, Bool.and_eq_true, beq_iff_eq] at ht
    rcases replace_fn σ inner.length f as with ⟨x, a, -, -, ha, heq⟩ | ⟨-, heq⟩
    · rw [heq]
      exact isWellSorted_lift inner ctx a [] (h.wellSorted ha)
    · rw [heq, isWellSorted, h.sorts_replaceList _ as, Bool.and_eq_true, beq_iff_eq]
      exact ⟨ht.1, isWellSortedList_replaceList h as inner ht.2⟩
  | .op f as, inner, ht => by
    rw [isWellSorted, Bool.and_eq_true] at ht
    rw [replace, isWellSorted, h.sorts_replaceList _ as, Bool.and_eq_true]
    exact ⟨ht.1, isWellSortedList_replaceList h as inner ht.2⟩
  | .quant q xs b, inner, ht => by
    rw [isWellSorted, Bool.and_eq_true, ← List.append_assoc] at ht
    have hb := isWellSorted_replace h b _ ht.2
    rw [List.length_append, List.length_map, List.length_reverse, Nat.add_comm,
      List.append_assoc] at hb
    rw [replace, isWellSorted, isBool, h.sort_replace _ b, Bool.and_eq_true]
    exact ⟨ht.1, hb⟩

/-- Substitution keeps all terms of a list well-sorted. -/
theorem isWellSortedList_replaceList (h : IsSubstitutionIn ctx σ) :
    ∀ (as : List Term) (inner : List TermSort), isWellSortedList (inner ++ ctx) as = true →
      isWellSortedList (inner ++ ctx) (replaceList σ inner.length as) = true
  | [], _, _ => rfl
  | a :: as, inner, has => by
    rw [isWellSortedList, Bool.and_eq_true] at has
    rw [replaceList, isWellSortedList, Bool.and_eq_true]
    exact ⟨isWellSorted_replace h a inner has.1, isWellSortedList_replaceList h as inner has.2⟩

end

end IsSubstitutionIn

/-- Putting closed terms in keeps the sort. -/
theorem sort_replace (h : IsSubstitution σ) (depth : Nat) (t : Term) :
    (replace σ depth t).sort = t.sort := (h.inContext []).sort_replace depth t

/-- Putting closed terms in keeps closed terms well-sorted. -/
theorem isWellSorted_replace (h : IsSubstitution σ) {t : Term} (ht : t.isWellSorted [] = true) :
    (replace σ 0 t).isWellSorted [] = true := (h.inContext []).isWellSorted_replace t [] ht

/-! ### Symbols -/

/-- The symbol is one of some symbols after the replacement of constants: it was one before and is
no replaced constant, or it comes with what is put in for one of them. -/
def Replaced (σ : Constant → Option Term) (symbols : List Symbol) (g : Symbol) : Prop :=
  (g ∈ symbols ∧ ∀ x, x.symbol = g → σ x = none) ∨
    ∃ x a, σ x = some a ∧ x.symbol ∈ symbols ∧ g ∈ a.symbols

theorem replaced_nil (g : Symbol) : ¬Replaced σ [] g := by
  rintro (⟨hg, -⟩ | ⟨_, _, -, hx, -⟩)
  · cases hg
  · cases hx

theorem replaced_append {fs fs' : List Symbol} {g : Symbol} :
    Replaced σ (fs ++ fs') g ↔ Replaced σ fs g ∨ Replaced σ fs' g := by
  unfold Replaced
  -- A symbol after the replacement comes from one of the two lists.
  simp only [List.mem_append, or_and_right, and_or_left, exists_or]
  exact or_or_or_comm

/-- The symbol of a replaced constant goes, and the symbols of its value come. -/
theorem replaced_singleton_of_some {x : Constant} {a : Term} (ha : σ x = some a) {g : Symbol} :
    Replaced σ [x.symbol] g ↔ g ∈ a.symbols := by
  unfold Replaced
  simp only [List.mem_singleton]
  constructor
  · rintro (⟨rfl, hnone⟩ | ⟨y, b, hb, hy, hg⟩)
    · rw [hnone x rfl] at ha
      cases ha
    · obtain rfl := Constant.symbol_injective hy
      rw [ha, Option.some.injEq] at hb
      rwa [hb]
  · exact fun hg => .inr ⟨x, a, ha, rfl, hg⟩

/-- Other symbols stay. -/
theorem replaced_singleton_of_none {f : Symbol} (hf : ∀ x, x.symbol = f → σ x = none)
    {g : Symbol} : Replaced σ [f] g ↔ g = f := by
  unfold Replaced
  simp only [List.mem_singleton]
  constructor
  · rintro (⟨rfl, -⟩ | ⟨x, a, ha, hx, -⟩)
    · rfl
    · rw [hf x hx] at ha
      cases ha
  · rintro rfl
    exact .inl ⟨rfl, hf⟩

namespace IsSubstitutionIn

mutual

/-- **The symbols after a substitution.** -/
theorem mem_symbols_replace (h : IsSubstitutionIn ctx σ) (depth : Nat) (g : Symbol) :
    ∀ (t : Term) (around : List TermSort), t.isWellSorted around = true →
      (g ∈ (replace σ depth t).symbols ↔ Replaced σ t.symbols g)
  | .lit _, _, _ => iff_of_false List.not_mem_nil (replaced_nil g)
  | .bound _ _, _, _ => iff_of_false List.not_mem_nil (replaced_nil g)
  | .fn f as, around, ht => by
    rw [isWellSorted, Bool.and_eq_true, beq_iff_eq] at ht
    rcases replace_fn σ depth f as with ⟨x, a, rfl, rfl, ha, heq⟩ | ⟨hnone, heq⟩
    · rw [heq, symbols_lift]
      exact (replaced_singleton_of_some ha).symm
    · -- A well-sorted application of the symbol of a constant has no arguments.
      have hf : ∀ x, x.symbol = f → σ x = none := by
        rintro x rfl
        exact hnone x rfl (List.map_eq_nil_iff.1 ht.1)
      have happend : symbols (.fn f as) = [f] ++ symbolsList as := rfl
      rw [heq, symbols, List.mem_cons, mem_symbolsList_replaceList h depth g as around ht.2,
        happend, replaced_append, replaced_singleton_of_none hf]
  | .op f as, around, ht => by
    rw [isWellSorted, Bool.and_eq_true] at ht
    rw [replace, symbols, symbols, mem_symbolsList_replaceList h depth g as around ht.2]
  | .quant q xs b, around, ht => by
    rw [isWellSorted, Bool.and_eq_true] at ht
    rw [replace, symbols, symbols, mem_symbols_replace h _ g b _ ht.2]

/-- The symbols of a list of terms after a substitution. -/
theorem mem_symbolsList_replaceList (h : IsSubstitutionIn ctx σ) (depth : Nat) (g : Symbol) :
    ∀ (as : List Term) (around : List TermSort), isWellSortedList around as = true →
      (g ∈ symbolsList (replaceList σ depth as) ↔ Replaced σ (symbolsList as) g)
  | [], _, _ => iff_of_false List.not_mem_nil (replaced_nil g)
  | a :: as, around, has => by
    rw [isWellSortedList, Bool.and_eq_true] at has
    rw [replaceList, symbolsList, symbolsList, List.mem_append, replaced_append,
      mem_symbols_replace h depth g a around has.1,
      mem_symbolsList_replaceList h depth g as around has.2]

end

end IsSubstitutionIn

/-- The symbols after closed terms have been put in. -/
theorem mem_symbols_replace (h : IsSubstitution σ) (depth : Nat) (g : Symbol) (t : Term)
    (around : List TermSort) (ht : t.isWellSorted around = true) :
    g ∈ (replace σ depth t).symbols ↔ Replaced σ t.symbols g :=
  (h.inContext []).mem_symbols_replace depth g t around ht

end Term
end Horn
