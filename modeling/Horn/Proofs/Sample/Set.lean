import Horn.Sample.Set
import Mathlib.Algebra.Order.Ring.Rat

/-!
# Sets and maps of samples

Two samples are the same if they are about one predicate and the keys of their values are equal
(`Sample.same_iff`). Membership in a set is up to this equality. The union of two sets has the
members of both (`SampleSet.has_union`), so that the order in which samples are added does not
matter. A map finds what was entered last for a key (`SampleMap.get?_insert`).
-/

namespace Horn

/-- Keys that compare as equal are equal. -/
theorem Value.Key.compare_eq_iff {a b : Key} : a.compare b = .eq ↔ a = b := by
  unfold compare
  constructor
  · intro h
    split_ifs at h with h₁ h₂ h₃ h₄
    obtain ⟨r, x⟩ := a
    obtain ⟨r', y⟩ := b
    obtain rfl : r = r' := Nat.le_antisymm (not_lt.1 h₂) (not_lt.1 h₁)
    obtain rfl : x = y := le_antisymm (not_lt.1 h₄) (not_lt.1 h₃)
    rfl
  · rintro rfl
    simp

namespace Sample

theorem compareArgs_eq_iff {as bs : List Value} :
    compareArgs as bs = .eq ↔ as.map (·.key) = bs.map (·.key) := by
  induction as generalizing bs with
  | nil => cases bs <;> simp [compareArgs]
  | cons a as ih =>
    cases bs with
    | nil => simp [compareArgs]
    | cons b bs =>
      rw [compareArgs, List.map_cons, List.map_cons, List.cons.injEq, ← ih,
        ← Value.Key.compare_eq_iff]
      -- The first arguments decide unless they compare as equal.
      cases a.key.compare b.key <;> simp

/-- The samples that compare as equal are those with the same key. -/
theorem compare_eq_iff {s t : Sample} :
    s.compare t = .eq ↔ s.pred = t.pred ∧ s.args.map (·.key) = t.args.map (·.key) := by
  unfold compare
  split_ifs with h₁ h₂
  · exact iff_of_false nofun fun h => h₁.ne h.1
  · exact iff_of_false nofun fun h => h₂.ne' h.1
  · rw [compareArgs_eq_iff, and_iff_right (le_antisymm (not_lt.1 h₂) (not_lt.1 h₁))]

theorem same_iff {s t : Sample} :
    s.same t = true ↔ s.pred = t.pred ∧ s.args.map (·.key) = t.args.map (·.key) := by
  rw [same, beq_iff_eq, compare_eq_iff]

theorem same_self (s : Sample) : s.same s = true := same_iff.2 ⟨rfl, rfl⟩

theorem same_symm {s t : Sample} (h : s.same t = true) : t.same s = true := by
  obtain ⟨hpred, hkeys⟩ := same_iff.1 h
  exact same_iff.2 ⟨hpred.symm, hkeys.symm⟩

/-- What is the same as one of two samples with the same key is the same as the other one. -/
theorem same_congr {s t : Sample} (h : s.same t = true) (u : Sample) : s.same u = t.same u := by
  rw [same_iff] at h
  rw [Bool.eq_iff_iff, same_iff, same_iff, h.1, h.2]

theorem same_trans {s t u : Sample} (h : s.same t = true) (h' : t.same u = true) :
    s.same u = true := by
  rw [same_congr h, h']

end Sample

namespace SampleSet

theorem has_cons (s : Sample) (m : SampleSet) (t : Sample) :
    has (s :: m) t = (s.same t || has m t) := List.any_cons

theorem has_iff {m : SampleSet} {t : Sample} : has m t = true ↔ ∃ s ∈ m, s.same t = true :=
  List.any_eq_true

theorem has_insert (s : Sample) (m : SampleSet) (t : Sample) :
    has (insert s m) t = (s.same t || has m t) := by
  induction m with
  | nil => rfl
  | cons u m ih =>
    rw [insert]
    cases hsu : s.compare u with
    | lt => exact has_cons s (u :: m) t
    | eq =>
      -- The sample that was there first stays; it has the same key.
      rw [has_cons, Sample.same_congr (beq_iff_eq.2 hsu) t, ← Bool.or_assoc, Bool.or_self]
    | gt => rw [has_cons, has_cons, ih, Bool.or_left_comm]

/-- **A union has the members of both sets.** -/
theorem has_union (m n : SampleSet) (t : Sample) : has (union m n) t = (has m t || has n t) := by
  induction n generalizing m with
  | nil => exact (Bool.or_false _).symm
  | cons s n ih =>
    change has (union (insert s m) n) t = _
    rw [ih, has_insert, has_cons, Bool.or_left_comm, Bool.or_assoc]

/-- What has been inserted, or was there before. -/
theorem mem_insert {s t : Sample} {m : SampleSet} (h : t ∈ insert s m) : t = s ∨ t ∈ m := by
  induction m with
  | nil => exact .inl (List.mem_singleton.1 h)
  | cons u m ih =>
    rw [insert] at h
    split at h
    · exact List.mem_cons.1 h
    · exact .inr h
    · rcases List.mem_cons.1 h with rfl | h
      · exact .inr List.mem_cons_self
      · exact (ih h).imp_right (List.mem_cons_of_mem u)

theorem mem_union {m n : SampleSet} {t : Sample} (h : t ∈ union m n) : t ∈ m ∨ t ∈ n := by
  induction n generalizing m with
  | nil => exact .inl h
  | cons s n ih =>
    rcases ih (show t ∈ union (insert s m) n from h) with h | h
    · rcases mem_insert h with rfl | h
      · exact .inr List.mem_cons_self
      · exact .inl h
    · exact .inr (List.mem_cons_of_mem s h)

/-- A union of three sets can be taken in two ways. -/
theorem union_append (m n n' : SampleSet) : union m (n ++ n') = union (union m n) n' :=
  List.foldl_append

end SampleSet

namespace SampleMap

variable {α : Type}

theorem get?_cons (u : Sample) (b : α) (m : SampleMap α) (t : Sample) :
    get? ((u, b) :: m) t = if u.same t then some b else get? m t := by
  unfold get?
  rw [List.find?_cons]
  cases hut : u.same t <;> rfl

/-- **Setting a value** changes what is found for the samples with that key. -/
theorem get?_insert (s : Sample) (a : α) (m : SampleMap α) (t : Sample) :
    get? (insert s a m) t = if s.same t then some a else get? m t := by
  induction m with
  | nil => exact get?_cons s a [] t
  | cons e m ih =>
    obtain ⟨u, b⟩ := e
    rw [insert]
    cases hsu : s.compare u with
    | lt => exact get?_cons s a ((u, b) :: m) t
    | eq =>
      -- The sample that was there first stays; it has the same key.
      have hsame : u.same t = s.same t := (Sample.same_congr (beq_iff_eq.2 hsu) t).symm
      dsimp only
      rw [get?_cons, get?_cons, hsame]
      cases s.same t <;> rfl
    | gt =>
      dsimp only
      rw [get?_cons, get?_cons, ih]
      by_cases hut : u.same t = true
      · -- A sample with both keys would make them equal.
        have hst : ¬s.same t = true := by
          intro hst
          have hkeys : s.same u = true := by
            rw [Sample.same_iff] at hst hut ⊢
            exact ⟨hst.1.trans hut.1.symm, hst.2.trans hut.2.symm⟩
          have heq : s.compare u = .eq := beq_iff_eq.1 hkeys
          rw [hsu] at heq
          cases heq
        rw [if_pos hut, if_neg hst, if_pos hut]
      · rw [if_neg hut, if_neg hut]

end SampleMap
end Horn
