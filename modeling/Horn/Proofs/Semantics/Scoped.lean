import Horn.Proofs.Semantics.Sorting
import Horn.Term.Substitute

/-!
# Scoped terms

A term is scoped (`Term.Scoped`) if every bound variable in it is bound, at its sort, and every
application of a symbol has arguments of the sorts of its domain. Nothing is asked of the operators,
so this is less than being well-sorted.

Lifting and instantiation keep sorts and scopes: the variables around a term are split into those
bound inside of what is changed, and those bound outside, as in the definitions of `Term.lift` and
`Term.instantiateAt`.
-/

namespace Horn
namespace Term

/-! ### Scoped terms -/

mutual

/-- Whether every bound variable of a term is bound at its sort, and every application of a symbol
fits its domain. -/
def Scoped (bound : List TermSort) : Term → Prop
  | .lit _ => True
  | .bound i s => bound[i]? = some s
  | .fn f as => as.map sort = f.domain ∧ ScopedList bound as
  | .op _ as => ScopedList bound as
  | .quant _ xs b => Scoped (xs.reverse.map (·.sort) ++ bound) b

/-- Whether all terms of a list are scoped. -/
def ScopedList (bound : List TermSort) : List Term → Prop
  | [] => True
  | a :: as => Scoped bound a ∧ ScopedList bound as

end

@[simp] theorem scopedList_iff (bound : List TermSort) (as : List Term) :
    ScopedList bound as ↔ ∀ a ∈ as, a.Scoped bound := by
  induction as with
  | nil => simp [ScopedList]
  | cons a as ih => simp [ScopedList, ih]

theorem scoped_fn {bound : List TermSort} {f : Symbol} {as : List Term} :
    (fn f as).Scoped bound ↔ as.map sort = f.domain ∧ ∀ a ∈ as, a.Scoped bound := by
  rw [Scoped, scopedList_iff]

theorem scoped_op {bound : List TermSort} {f : Op} {as : List Term} :
    (op f as).Scoped bound ↔ ∀ a ∈ as, a.Scoped bound := by
  rw [Scoped, scopedList_iff]

mutual

/-- A well-sorted term is scoped. -/
theorem Scoped.of_isWellSorted : ∀ {t : Term} {ctx : List TermSort},
    t.isWellSorted ctx = true → t.Scoped ctx
  | .lit _, _, _ => trivial
  | .bound i s, ctx, h => by rwa [isWellSorted, beq_iff_eq] at h
  | .fn f as, ctx, h => by
    rw [isWellSorted, Bool.and_eq_true, beq_iff_eq] at h
    exact ⟨h.1, ScopedList.of_isWellSorted h.2⟩
  | .op f as, ctx, h => by
    rw [isWellSorted, Bool.and_eq_true] at h
    exact ScopedList.of_isWellSorted h.2
  | .quant q xs b, ctx, h => by
    rw [isWellSorted, Bool.and_eq_true] at h
    rw [Scoped]
    exact Scoped.of_isWellSorted h.2

theorem ScopedList.of_isWellSorted : ∀ {as : List Term} {ctx : List TermSort},
    isWellSortedList ctx as = true → ScopedList ctx as
  | [], _, _ => trivial
  | _ :: _, ctx, h => by
    rw [isWellSortedList, Bool.and_eq_true] at h
    exact ⟨Scoped.of_isWellSorted h.1, ScopedList.of_isWellSorted h.2⟩

end

/-! ### Lifting and instantiation -/

mutual

/-- Lifting keeps the sort. -/
theorem sort_lift (d c : Nat) : ∀ t : Term, (lift d c t).sort = t.sort
  | .lit _ => rfl
  | .bound i s => by
    rw [lift]
    split <;> rfl
  | .fn _ _ => rfl
  | .op f as => by
    rw [lift, sort, sort, sortHeads_eq_map, sortHeads_eq_map, sorts_liftList d c as]
  | .quant _ _ _ => rfl

theorem sorts_liftList (d c : Nat) : ∀ as : List Term, (liftList d c as).map sort = as.map sort
  | [] => rfl
  | a :: as => by
    rw [liftList, List.map_cons, List.map_cons, sort_lift d c a, sorts_liftList d c as]

end

mutual

/-- A scoped term stays scoped when further binders come in between. -/
theorem Scoped.lift (mid outer : List TermSort) : ∀ {t : Term} (inner : List TermSort),
    t.Scoped (inner ++ outer) → (t.lift mid.length inner.length).Scoped (inner ++ (mid ++ outer))
  | .lit _, _, _ => trivial
  | .bound i s, inner, h => by
    rw [Scoped] at h
    rw [Term.lift]
    split
    · next hi =>
      rw [List.getElem?_append_left hi] at h
      rw [Scoped, List.getElem?_append_left hi, h]
    · next hi =>
      rw [List.getElem?_append_right (by omega)] at h
      have hsub : i + mid.length - inner.length = mid.length + (i - inner.length) := by omega
      rw [Scoped, List.getElem?_append_right (by omega), hsub,
        List.getElem?_append_right (by omega), Nat.add_sub_cancel_left, h]
  | .fn f as, inner, h => by
    rw [Scoped] at h
    rw [Term.lift, Scoped, sorts_liftList]
    exact ⟨h.1, ScopedList.liftList mid outer inner h.2⟩
  | .op f as, inner, h => by
    rw [Scoped] at h
    exact ScopedList.liftList mid outer inner h
  | .quant q xs b, inner, h => by
    rw [Scoped, ← List.append_assoc] at h
    have hb := Scoped.lift mid outer _ h
    rw [List.length_append, List.length_map, List.length_reverse, Nat.add_comm,
      List.append_assoc] at hb
    exact hb

theorem ScopedList.liftList (mid outer : List TermSort) : ∀ {as : List Term}
    (inner : List TermSort), ScopedList (inner ++ outer) as →
      ScopedList (inner ++ (mid ++ outer)) (Term.liftList mid.length inner.length as)
  | [], _, _ => trivial
  | _ :: _, inner, h => ⟨Scoped.lift mid outer inner h.1, ScopedList.liftList mid outer inner h.2⟩

end

mutual

/-- A scoped term is scoped under more binders, too. -/
theorem Scoped.append (outer : List TermSort) : ∀ {t : Term} {ctx : List TermSort},
    t.Scoped ctx → t.Scoped (ctx ++ outer)
  | .lit _, _, _ => trivial
  | .bound i s, ctx, h => by
    rw [Scoped] at h ⊢
    rw [List.getElem?_append_left (List.getElem?_eq_some_iff.1 h).1, h]
  | .fn f as, _, h => ⟨h.1, ScopedList.append outer h.2⟩
  | .op f as, _, h => by
    rw [Scoped] at h ⊢
    exact ScopedList.append outer h
  | .quant q xs b, _, h => by
    rw [Scoped] at h ⊢
    rw [← List.append_assoc]
    exact Scoped.append outer h

theorem ScopedList.append (outer : List TermSort) : ∀ {as : List Term} {ctx : List TermSort},
    ScopedList ctx as → ScopedList (ctx ++ outer) as
  | [], _, _ => trivial
  | _ :: _, _, h => ⟨Scoped.append outer h.1, ScopedList.append outer h.2⟩

end

mutual

/-- Filling in terms of the sorts of the bound variables keeps the sort. -/
theorem sort_instantiateAt {ts : List Term} {outer : List TermSort} :
    ∀ {t : Term} {inner : List TermSort}, t.Scoped (inner ++ (ts.map sort ++ outer)) →
      (t.instantiateAt ts inner.length).sort = t.sort
  | .lit _, _, _ => rfl
  | .bound i s, inner, h => by
    rw [Scoped] at h
    rw [instantiateAt]
    split
    · rfl
    · next hi =>
      -- The variable comes from outside of the inner binders: it is filled in, or counted anew.
      rw [List.getElem?_append_right (by omega)] at h
      cases ht : ts[i - inner.length]? with
      | none => rfl
      | some t =>
        have hlt : i - inner.length < (ts.map sort).length := by
          rw [List.length_map]
          exact (List.getElem?_eq_some_iff.1 ht).1
        rw [List.getElem?_append_left hlt, List.getElem?_map, ht, Option.map_some,
          Option.some.injEq] at h
        rw [sort, ← h]
        exact sort_lift _ 0 t
  | .fn _ _, _, _ => rfl
  | .op f as, inner, h => by
    rw [Scoped] at h
    rw [instantiateAt, sort, sort, sortHeads_eq_map, sortHeads_eq_map,
      sorts_instantiateAtList h]
  | .quant _ _ _, _, _ => rfl

theorem sorts_instantiateAtList {ts : List Term} {outer : List TermSort} :
    ∀ {as : List Term} {inner : List TermSort},
      ScopedList (inner ++ (ts.map sort ++ outer)) as →
        (instantiateAtList ts inner.length as).map sort = as.map sort
  | [], _, _ => rfl
  | a :: as, inner, h => by
    rw [instantiateAtList, List.map_cons, List.map_cons, sort_instantiateAt h.1,
      sorts_instantiateAtList h.2]

end

mutual

/-- Filling in scoped terms of the sorts of the bound variables leaves a scoped term. -/
theorem Scoped.instantiateAt {ts : List Term} {outer : List TermSort}
    (hts : ∀ t ∈ ts, t.Scoped outer) : ∀ {t : Term} (inner : List TermSort),
      t.Scoped (inner ++ (ts.map sort ++ outer)) →
        (t.instantiateAt ts inner.length).Scoped (inner ++ outer)
  | .lit _, _, _ => trivial
  | .bound i s, inner, h => by
    rw [Scoped] at h
    rw [Term.instantiateAt]
    split
    · next hi =>
      rw [List.getElem?_append_left hi] at h
      rw [Scoped, List.getElem?_append_left hi, h]
    · next hi =>
      rw [List.getElem?_append_right (by omega)] at h
      cases ht : ts[i - inner.length]? with
      | some t =>
        -- What is filled in moves under the binders of the term.
        exact Scoped.lift inner outer [] (hts t (List.mem_of_getElem? ht))
      | none =>
        have hge := List.getElem?_eq_none_iff.1 ht
        rw [List.getElem?_append_right (by rwa [List.length_map]), List.length_map] at h
        have hsub : i - ts.length - inner.length = i - inner.length - ts.length := by omega
        change (Term.bound (i - ts.length) s).Scoped (inner ++ outer)
        rw [Scoped, List.getElem?_append_right (by omega), hsub, h]
  | .fn f as, inner, h => by
    rw [Scoped] at h
    rw [Term.instantiateAt, Scoped, sorts_instantiateAtList h.2]
    exact ⟨h.1, ScopedList.instantiateAtList hts inner h.2⟩
  | .op f as, inner, h => by
    rw [Scoped] at h
    exact ScopedList.instantiateAtList hts inner h
  | .quant q xs b, inner, h => by
    rw [Scoped, ← List.append_assoc] at h
    have hb := Scoped.instantiateAt hts _ h
    rw [List.length_append, List.length_map, List.length_reverse, Nat.add_comm,
      List.append_assoc] at hb
    exact hb

theorem ScopedList.instantiateAtList {ts : List Term} {outer : List TermSort}
    (hts : ∀ t ∈ ts, t.Scoped outer) : ∀ {as : List Term} (inner : List TermSort),
      ScopedList (inner ++ (ts.map sort ++ outer)) as →
        ScopedList (inner ++ outer) (Term.instantiateAtList ts inner.length as)
  | [], _, _ => trivial
  | _ :: _, inner, h =>
    ⟨Scoped.instantiateAt hts inner h.1, ScopedList.instantiateAtList hts inner h.2⟩

end

end Term

end Horn
