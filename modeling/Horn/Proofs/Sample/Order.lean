import Horn.EntryPoints.Entry
import Horn.Proofs.Sample.Set
import Horn.Proofs.Sample.Value
import Mathlib.Data.List.Lex
import Mathlib.Data.Prod.Lex
import Mathlib.Order.Compare

/-!
# The order of samples

Samples are compared like their keys `Sample.sortKey`, a predicate handle and a list of ranked
numbers, in the lexicographic order (`Sample.compares`). This order is linear, so that `Sample.Less`
is a strict total order up to equality of keys.

A sorted list is ascending. A set is strictly ascending (`SampleSet.ascending_ofList`), hence it is
determined by its members (`SampleSet.forall₂_same`), and sorting its samples in any other order
gives the set back (`SampleSet.sort_eq`).
-/

namespace Horn

namespace Value

/-- A key in the lexicographic order. -/
def Key.lex (a : Key) : ℕ ×ₗ ℚ := toLex (a.rank, a.number)

/-- Keys are compared lexicographically. -/
theorem Key.compares (a b : Key) : (a.compare b).Compares a.lex b.lex := by
  unfold compare
  split_ifs with h₁ h₂ h₃ h₄
  · exact Prod.Lex.toLex_lt_toLex.2 (.inl h₁)
  · exact Prod.Lex.toLex_lt_toLex.2 (.inl h₂)
  · have hrank : a.rank = b.rank := le_antisymm (not_lt.1 h₂) (not_lt.1 h₁)
    exact Prod.Lex.toLex_lt_toLex.2 (.inr ⟨hrank, h₃⟩)
  · have hrank : b.rank = a.rank := le_antisymm (not_lt.1 h₁) (not_lt.1 h₂)
    exact Prod.Lex.toLex_lt_toLex.2 (.inr ⟨hrank, h₄⟩)
  · have hrank : a.rank = b.rank := le_antisymm (not_lt.1 h₂) (not_lt.1 h₁)
    have hnumber : a.number = b.number := le_antisymm (not_lt.1 h₄) (not_lt.1 h₃)
    exact congrArg toLex (Prod.ext hrank hnumber)

/-- Different values with the same key are an integer and a rational that is that integer. -/
theorem key_eq_iff {v w : Value} (hv : v.isSupported = true) (hw : w.isSupported = true) :
    v.key = w.key ↔ v = w ∨ ∃ q, v.number? = some q ∧ w.number? = some q := by
  constructor
  · intro h
    exact (eq_or_number_of_key h hv hw).imp_right fun ⟨n, hn, hn'⟩ => ⟨n, hn, hn'⟩
  · rintro (rfl | ⟨q, hv, hw⟩)
    · rfl
    · rw [key_of_number hv, key_of_number hw]

end Value

namespace Sample

/-! ### Comparison by key -/

/-- The key of a sample, in the lexicographic order. -/
def sortKey (s : Sample) : ℤ ×ₗ List (ℕ ×ₗ ℚ) := toLex (s.pred, s.args.map fun v => v.key.lex)

theorem compareArgs_compares (as bs : List Value) : (compareArgs as bs).Compares
    (as.map fun v => v.key.lex) (bs.map fun v => v.key.lex) := by
  induction as generalizing bs with
  | nil =>
    cases bs with
    | nil => exact rfl
    | cons b bs => exact List.Lex.nil
  | cons a as ih =>
    cases bs with
    | nil => exact List.Lex.nil
    | cons b bs =>
      have hkey := a.key.compares b.key
      have hargs := ih bs
      rw [compareArgs]
      generalize a.key.compare b.key = o at hkey ⊢
      generalize compareArgs as bs = o' at hargs ⊢
      -- The first arguments decide unless they compare as equal.
      cases o with
      | lt => exact List.Lex.rel hkey
      | gt => exact List.Lex.rel hkey
      | eq =>
        have hkey : a.key.lex = b.key.lex := hkey
        dsimp only
        rw [List.map_cons, List.map_cons, hkey]
        cases o' with
        | lt => exact List.Lex.cons hargs
        | gt => exact List.Lex.cons hargs
        | eq => exact congrArg _ hargs

/-- **Samples are compared by their keys.** -/
theorem compares (s t : Sample) : (s.compare t).Compares s.sortKey t.sortKey := by
  unfold compare
  split_ifs with h₁ h₂
  · exact Prod.Lex.toLex_lt_toLex.2 (.inl h₁)
  · exact Prod.Lex.toLex_lt_toLex.2 (.inl h₂)
  · have hpred : s.pred = t.pred := le_antisymm (not_lt.1 h₂) (not_lt.1 h₁)
    have hargs := compareArgs_compares s.args t.args
    generalize compareArgs s.args t.args = o at hargs ⊢
    cases o with
    | lt => exact Prod.Lex.toLex_lt_toLex.2 (.inr ⟨hpred, hargs⟩)
    | gt => exact Prod.Lex.toLex_lt_toLex.2 (.inr ⟨hpred.symm, hargs⟩)
    | eq => exact congrArg toLex (Prod.ext hpred hargs)

/-- One sample comes before another one. -/
def Less (s t : Sample) : Prop := s.compare t = .lt

instance (s t : Sample) : Decidable (s.Less t) := inferInstanceAs (Decidable (_ = _))

variable {s t u : Sample}

theorem less_iff : s.Less t ↔ s.sortKey < t.sortKey := (compares s t).eq_lt

theorem compare_eq_gt : s.compare t = .gt ↔ t.Less s := by
  rw [less_iff]
  exact (compares s t).eq_gt

theorem same_iff_sortKey : s.same t = true ↔ s.sortKey = t.sortKey := by
  rw [same, beq_iff_eq]
  exact (compares s t).eq_eq

theorem Less.trans (h : s.Less t) (h' : t.Less u) : s.Less u :=
  less_iff.2 ((less_iff.1 h).trans (less_iff.1 h'))

/-- **Exactly one** of three relations holds between two samples. -/
theorem trichotomy (s t : Sample) :
    (s.Less t ∧ s.same t = false ∧ ¬t.Less s) ∨ (¬s.Less t ∧ s.same t = true ∧ ¬t.Less s) ∨
      (¬s.Less t ∧ s.same t = false ∧ t.Less s) := by
  have hgt : t.Less s ↔ s.compare t = .gt := compare_eq_gt.symm
  rw [hgt, Less, same]
  cases s.compare t <;> decide

/-- A sample comes before its proper extensions. -/
theorem less_append (p : Int) (as : List Value) (b : Value) (bs : List Value) :
    Less ⟨p, as⟩ ⟨p, as ++ b :: bs⟩ := by
  have hargs : (as.map fun v => v.key.lex) < (as ++ b :: bs).map fun v => v.key.lex := by
    induction as with
    | nil => exact List.Lex.nil
    | cons a as ih => exact List.Lex.cons ih
  exact less_iff.2 (Prod.Lex.toLex_lt_toLex.2 (.inr ⟨rfl, hargs⟩))

/-! ### Sorting -/

theorem not_less_iff : ¬t.Less s ↔ s.sortKey ≤ t.sortKey := by
  rw [less_iff, not_lt]

theorem sort_perm (l : List Sample) : (sort l).Perm l := List.mergeSort_perm l _

theorem sort_ascending (l : List Sample) : (sort l).Pairwise fun s t => ¬t.Less s := by
  have hle : ∀ s t : Sample, (s.compare t != .gt) = true ↔ s.sortKey ≤ t.sortKey := by
    intro s t
    rw [bne_iff_ne, Ne, compare_eq_gt, not_less_iff]
  refine (List.pairwise_mergeSort ?_ ?_ l).imp fun h => not_less_iff.2 ((hle _ _).1 h)
  · intro s t u hst htu
    rw [hle] at hst htu ⊢
    exact hst.trans htu
  · intro s t
    rw [Bool.or_eq_true, hle, hle]
    exact le_total _ _

theorem firstUnsupported?_eq_none {l : List Sample} :
    firstUnsupported? l = none ↔ ∀ s ∈ l, s.unsupported? = none := List.findSome?_eq_none_iff

/-- Supported samples can be sorted. -/
theorem sortingFault?_eq_none {l : List Sample} (h : firstUnsupported? l = none) :
    sortingFault? l = none := by
  rw [firstUnsupported?_eq_none] at h
  refine firstUnsupported?_eq_none.2 fun s hs => h s ?_
  -- Sorting looks at the samples of the list, the first two the other way around.
  match l with
  | [] => cases hs
  | [_] => cases hs
  | a :: b :: rest => exact (List.Perm.swap a b rest).mem_iff.1 hs

end Sample

namespace SampleSet

/-! ### Sets are strictly ascending -/

variable {m n : SampleSet}

theorem ascending_insert (s : Sample) (h : m.Pairwise Sample.Less) :
    (insert s m).Pairwise Sample.Less := by
  induction m with
  | nil => exact List.pairwise_singleton _ s
  | cons u m ih =>
    obtain ⟨hu, hm⟩ := List.pairwise_cons.1 h
    rw [insert]
    cases hsu : s.compare u with
    | lt =>
      have hs : ∀ t ∈ u :: m, s.Less t :=
        List.forall_mem_cons.2 ⟨hsu, fun t ht => Sample.Less.trans hsu (hu t ht)⟩
      exact h.cons hs
    | eq => exact h
    | gt =>
      -- The first sample stays in front, of the new one too.
      refine (ih hm).cons fun t ht => ?_
      rcases mem_insert ht with rfl | ht
      · exact Sample.compare_eq_gt.1 hsu
      · exact hu t ht

theorem ascending_ofList (l : List Sample) : (ofList l).Pairwise Sample.Less := by
  have hloop : ∀ m : SampleSet, m.Pairwise Sample.Less →
      (l.foldl (fun m s => insert s m) m).Pairwise Sample.Less := by
    induction l with
    | nil => exact fun m hm => hm
    | cons s l ih => exact fun m hm => ih (insert s m) (ascending_insert s hm)
  exact hloop [] .nil

theorem has_ofList (l : List Sample) (t : Sample) : has (ofList l) t = has l t :=
  (has_union [] l t).trans (Bool.false_or _)

theorem has_iff_sortKey {t : Sample} : has m t = true ↔ t.sortKey ∈ m.map Sample.sortKey := by
  simp only [has_iff, Sample.same_iff_sortKey, List.mem_map]

/-- The keys of a set, in its order. -/
theorem sorted_keys (h : m.Pairwise Sample.Less) : (m.map Sample.sortKey).Pairwise (· < ·) :=
  List.pairwise_map.2 (h.imp Sample.less_iff.1)

/-- **A set is determined by its members**, up to equality of samples. -/
theorem forall₂_same (hm : m.Pairwise Sample.Less) (hn : n.Pairwise Sample.Less)
    (h : ∀ t, has m t = has n t) : List.Forall₂ (fun s t => s.same t = true) m n := by
  have hsub : ∀ {m n : SampleSet}, (∀ t, has m t = has n t) →
      ∀ k ∈ m.map Sample.sortKey, k ∈ n.map Sample.sortKey := by
    intro m n h k hk
    obtain ⟨s, hs, rfl⟩ := List.mem_map.1 hk
    rw [← has_iff_sortKey, ← h, has_iff_sortKey]
    exact List.mem_map_of_mem hs
  have hkeys : m.map Sample.sortKey = n.map Sample.sortKey :=
    (sorted_keys hm).eq_of_mem_iff (sorted_keys hn) fun k =>
      ⟨hsub h k, hsub (fun t => (h t).symm) k⟩
  rw [← List.forall₂_eq_eq_eq, List.forall₂_map_left_iff, List.forall₂_map_right_iff] at hkeys
  exact hkeys.imp fun _ _ => Sample.same_iff_sortKey.2

/-- **Sorting** the samples of a set, in whatever order they are given, gives the set. -/
theorem sort_eq {l : List Sample} (hm : m.Pairwise Sample.Less) (h : l.Perm m) :
    Sample.sort l = m := by
  have hperm := (Sample.sort_perm l).trans h
  have hascending : m.Pairwise fun s t => ¬t.Less s :=
    hm.imp fun hst hts => (Sample.less_iff.1 hst).asymm (Sample.less_iff.1 hts)
  refine hperm.eq_of_pairwise ?_ (Sample.sort_ascending l) hascending
  -- Samples of the set that are not in order are one and the same.
  intro s t hs ht hst hts
  have hkey : s.sortKey = t.sortKey :=
    le_antisymm (Sample.not_less_iff.1 hst) (Sample.not_less_iff.1 hts)
  exact List.inj_on_of_nodup_map (sorted_keys hm).nodup (hperm.mem_iff.1 hs) ht hkey

end SampleSet

/-- **Samples have one canonical order.** Comparison is a strict total order up to equality of keys,
in which a sample comes before its proper extensions. Keys of values differ unless the values are
equal or the same number. Sorting gives an ascending permutation. Entry points are strictly
ascending, and they are what sorting makes of any listing of them; from two lists that contain the
same samples the same sequence results. -/
theorem Sample.canonical_order :
    (∀ s t : Sample,
      (s.Less t ∧ s.same t = false ∧ ¬t.Less s) ∨ (¬s.Less t ∧ s.same t = true ∧ ¬t.Less s) ∨
        (¬s.Less t ∧ s.same t = false ∧ t.Less s)) ∧
    (∀ s t u : Sample, s.Less t → t.Less u → s.Less u) ∧
    (∀ p as b bs, Less ⟨p, as⟩ ⟨p, as ++ b :: bs⟩) ∧
    (∀ s t : Sample, (s.Less t ↔ s.sortKey < t.sortKey) ∧
      (s.same t = true ↔ s.pred = t.pred ∧ s.args.map (·.key) = t.args.map (·.key))) ∧
    (∀ v w : Value, v.isSupported = true → w.isSupported = true →
      (v.key = w.key ↔ v = w ∨ ∃ q, v.number? = some q ∧ w.number? = some q)) ∧
    (∀ l, firstUnsupported? l = none → sortingFault? l = none ∧ (sort l).Perm l ∧
      (sort l).Pairwise fun s t => ¬t.Less s) ∧
    (∀ l, firstUnsupported? l = none → ∃ e, Entry.ofList l = .ok e ∧ e.Pairwise Less ∧
      (∀ t, SampleSet.has e t = SampleSet.has l t) ∧ ∀ m, m.Perm e → sort m = e) ∧
    ∀ l l' e e', Entry.ofList l = .ok e → Entry.ofList l' = .ok e' →
      (∀ t, SampleSet.has l t = SampleSet.has l' t) →
      List.Forall₂ (fun s t => s.same t = true) e e' := by
  have hentry : ∀ l e, Entry.ofList l = .ok e → e = SampleSet.ofList l := by
    intro l e h
    unfold Entry.ofList at h
    split at h
    · cases h
    · exact (Except.ok.inj h).symm
  refine ⟨trichotomy, fun s t u => Less.trans, less_append, fun s t => ⟨less_iff, same_iff⟩,
    fun v w => Value.key_eq_iff, fun l h => ?_, fun l h => ?_, fun l l' e e' he he' h => ?_⟩
  · exact ⟨sortingFault?_eq_none h, sort_perm l, sort_ascending l⟩
  · refine ⟨SampleSet.ofList l, ?_, SampleSet.ascending_ofList l, SampleSet.has_ofList l,
      fun m => SampleSet.sort_eq (SampleSet.ascending_ofList l)⟩
    rw [Entry.ofList, h]
  · obtain rfl := hentry l e he
    obtain rfl := hentry l' e' he'
    refine SampleSet.forall₂_same (SampleSet.ascending_ofList l) (SampleSet.ascending_ofList l') ?_
    intro t
    rw [SampleSet.has_ofList, SampleSet.has_ofList, h]

/-- The samples `P₁(0)`, `P₀(2)` and `P₀(2/1)` are two, in the order in which `P₀(2/1)` and `P₁(0)`
stand for them. -/
theorem Sample.canonical_order_listed :
    ∃ e e', Entry.ofList [⟨1, [.int 0]⟩, ⟨0, [.int 2]⟩, ⟨0, [.frac 2]⟩] = .ok e ∧
      Entry.ofList [⟨0, [.frac 2]⟩, ⟨1, [.int 0]⟩] = .ok e' ∧
      e = [⟨0, [.int 2]⟩, ⟨1, [.int 0]⟩] ∧ List.Forall₂ (fun s t => s.same t = true) e e' ∧
      sort [⟨1, [.int 0]⟩, ⟨0, [.int 2]⟩] = e ∧
      (sort [⟨1, [.int 0]⟩, ⟨0, [.int 2]⟩, ⟨0, [.frac 2]⟩]).Pairwise (fun s t => ¬t.Less s) ∧
      Less ⟨0, [.bool true]⟩ ⟨1, [.int 0]⟩ ∧ (Value.int 2).key = (Value.frac 2).key := by
  obtain ⟨-, htrans, -, -, hkeys, hsort, hentry, hcanonical⟩ := canonical_order
  obtain ⟨e, he, -, -, hperm⟩ :=
    hentry [⟨1, [.int 0]⟩, ⟨0, [.int 2]⟩, ⟨0, [.frac 2]⟩] (by decide)
  obtain ⟨e', he', -⟩ := hentry [⟨0, [.frac 2]⟩, ⟨1, [.int 0]⟩] (by decide)
  have hmembers : ∀ t, SampleSet.has [⟨1, [.int 0]⟩, ⟨0, [.int 2]⟩, ⟨0, [.frac 2]⟩] t =
      SampleSet.has [⟨0, [.frac 2]⟩, ⟨1, [.int 0]⟩] t := by
    intro t
    have hsame := same_congr (s := ⟨0, [.int 2]⟩) (t := ⟨0, [.frac 2]⟩) (by decide) t
    simp only [SampleSet.has_cons, hsame]
    grind
  have heval : Entry.ofList [⟨1, [.int 0]⟩, ⟨0, [.int 2]⟩, ⟨0, [.frac 2]⟩] =
      .ok [⟨0, [.int 2]⟩, ⟨1, [.int 0]⟩] := rfl
  obtain rfl := Except.ok.inj (heval.symm.trans he)
  refine ⟨_, e', he, he', rfl, hcanonical _ _ _ e' he he' hmembers, hperm _ (.swap _ _ _),
    (hsort _ (by decide)).2.2, ?_, ?_⟩
  · exact htrans _ ⟨0, [.int 2]⟩ _ (by decide) (by decide)
  · exact (hkeys _ _ rfl rfl).2 (.inr ⟨2, rfl, rfl⟩)

end Horn
