import Horn.Proofs.Instance.Index
import Mathlib.Data.Prod.Lex
import Mathlib.Order.Lattice

/-!
# The priority of a split

Negative clauses are sorted by ascending priority, and of clauses with the same priority the one
with the largest number comes last.

* `Priority.le_iff`: the comparison of priorities is the lexicographic order on triples.
* `filter_mergeSort`: sorting by a key is stable, and leaves what has the same key as it was. So
  what is sorted is ascending if ties are broken by the old order (`pairwise_mergeSort_ties`).
* `pairwise_sortedClauses`: the sorted clauses are strictly ascending if numbers break the ties, so
  that places in the list tell which of two clauses is before the other (`idxOf_splitOrder`).
* `exists_connectivity`: the score by connectivity is a running sum that is set back to zero. What
  is left at the end is the sum over the predicates after the last one that is backed by a fact
  (`exists_suffix`).
-/

namespace Horn

/-! ### Sorting by a key -/

section Sorting

variable {α β : Type} [LinearOrder β] {key : α → β} {le : α → α → Bool}

theorem trans_of_key (hle : ∀ a b, le a b = true ↔ key a ≤ key b) (a b c : α)
    (hab : le a b = true) (hbc : le b c = true) : le a c = true := by
  rw [hle] at hab hbc ⊢
  exact hab.trans hbc

theorem total_of_key (hle : ∀ a b, le a b = true ↔ key a ≤ key b) (a b : α) :
    (le a b || le b a) = true := by
  rw [Bool.or_eq_true, hle, hle]
  exact le_total _ _

theorem pairwise_mergeSort_key (hle : ∀ a b, le a b = true ↔ key a ≤ key b) (l : List α) :
    (l.mergeSort le).Pairwise fun a b => le a b = true :=
  List.pairwise_mergeSort (trans_of_key hle) (total_of_key hle) l

/-- **Sorting is stable.** What has the same key stays in its order. -/
theorem filter_mergeSort (hle : ∀ a b, le a b = true ↔ key a ≤ key b) (l : List α) (t : β) :
    (l.mergeSort le).filter (fun a => key a = t) = l.filter (fun a => key a = t) := by
  have hlength := ((List.mergeSort_perm l le).filter fun a => decide (key a = t)).length_eq
  -- What has the key is sorted already, so it is still there as a sublist.
  have hsame : (l.filter fun a => key a = t).Pairwise fun a b => le a b = true := by
    apply List.pairwise_of_forall_mem_list
    intro a ha b hb
    have hat := of_decide_eq_true (List.mem_filter.1 ha).2
    have hbt := of_decide_eq_true (List.mem_filter.1 hb).2
    exact (hle a b).2 (hat.trans hbt.symm).le
  have hsub := List.sublist_mergeSort (trans_of_key hle) (total_of_key hle) hsame
    List.filter_sublist
  have hfilter := hsub.filter fun a => decide (key a = t)
  rw [List.filter_filter] at hfilter
  simp only [Bool.and_self] at hfilter
  exact (hfilter.eq_of_length hlength.symm).symm

/-- What is sorted is ascending, and where keys are the same it is in its old order. -/
theorem pairwise_mergeSort_ties (hle : ∀ a b, le a b = true ↔ key a ≤ key b) {l : List α}
    {R : α → α → Prop} (h : l.Pairwise R) :
    (l.mergeSort le).Pairwise fun a b => key a < key b ∨ key a = key b ∧ R a b := by
  have hsorted := pairwise_mergeSort_key hle l
  rw [List.pairwise_iff_forall_sublist] at h hsorted ⊢
  intro a b hab
  rcases ((hle a b).1 (hsorted hab)).lt_or_eq with hlt | heq
  · exact .inl hlt
  · refine .inr ⟨heq, h ?_⟩
    -- Sorting leaves the items that share a key in the order in which they stand in the list.
    have hsub := hab.filter fun c => decide (key c = key b)
    have hboth : [a, b].filter (fun c => decide (key c = key b)) = [a, b] := by
      rw [List.filter_eq_self, List.forall_mem_cons, List.forall_mem_singleton]
      exact ⟨decide_eq_true heq, decide_eq_true rfl⟩
    rw [hboth, filter_mergeSort hle] at hsub
    exact hsub.trans List.filter_sublist

/-- Places in a list whose items are told apart by numbers. -/
theorem rel_of_idxOf_lt {R : α → α → Prop} {number : α → ℕ} {l : List α} (h : l.Pairwise R)
    (hnodup : (l.map number).Nodup) {a b : α} (ha : a ∈ l) (hb : b ∈ l)
    (hlt : (l.map number).idxOf (number a) < (l.map number).idxOf (number b)) : R a b := by
  -- Equal numbers mean equal items, so the place of an item's number is the item's own place.
  have hfound : ∀ {c : α}, c ∈ l → ∃ hc : (l.map number).idxOf (number c) < l.length,
      l[(l.map number).idxOf (number c)] = c := by
    intro c hc
    have hplace := List.idxOf_lt_length_of_mem (List.mem_map_of_mem (f := number) hc)
    have hnumber := List.getElem_idxOf hplace
    rw [List.getElem_map] at hnumber
    rw [List.length_map] at hplace
    exact ⟨hplace, List.inj_on_of_nodup_map hnodup (List.getElem_mem hplace) hc hnumber⟩
  obtain ⟨hi, hia⟩ := hfound ha
  obtain ⟨hj, hjb⟩ := hfound hb
  have hrel := List.pairwise_iff_getElem.1 h _ _ hi hj hlt
  rwa [hia, hjb] at hrel

/-- In a strictly ascending list, places tell what is before what. -/
theorem idxOf_lt_iff {R : α → α → Prop} {number : α → ℕ} {l : List α} (h : l.Pairwise R)
    (hasymm : ∀ a b, R a b → ¬R b a) (hnodup : (l.map number).Nodup) {a b : α} (ha : a ∈ l)
    (hb : b ∈ l) :
    (l.map number).idxOf (number a) < (l.map number).idxOf (number b) ↔ R a b := by
  constructor
  · exact rel_of_idxOf_lt h hnodup ha hb
  · intro hab
    by_contra hnot
    rcases (not_lt.1 hnot).lt_or_eq with hlt | heq
    · exact hasymm a b hab (rel_of_idxOf_lt h hnodup hb ha hlt)
    · -- In one place there is one item only.
      have hnumber : number b = number a := (List.idxOf_inj (List.mem_map_of_mem hb)).1 heq
      obtain rfl : b = a := List.inj_on_of_nodup_map hnodup hb ha hnumber
      exact hasymm b b hab hab

end Sorting

namespace Instance

variable {inst : Instance} {byConnectivity : Bool}

/-! ### Priorities -/

/-- The priority as a triple in lexicographic order. -/
def Priority.triple (a : Priority) : Bool ×ₗ Bool ×ₗ ℤ :=
  toLex (a.strict, toLex (a.unrolling, a.score))

theorem Priority.le_iff (a b : Priority) : a.le b = true ↔ a.triple ≤ b.triple := by
  obtain ⟨s, u, n⟩ := a
  obtain ⟨s', u', n'⟩ := b
  unfold Priority.le Priority.triple
  rw [Prod.Lex.toLex_le_toLex, Prod.Lex.toLex_le_toLex]
  cases s <;> cases s' <;> cases u <;> cases u' <;> simp

/-- The score of a clause. -/
def score (inst : Instance) (byConnectivity : Bool) (c : Clause) : ℤ :=
  (inst.priority byConnectivity c).score

theorem score_false (inst : Instance) (c : Clause) : inst.score false c = -(c.index : ℤ) :=
  rfl

/-- The priority of a clause: strictly negative clauses are above the others, then those from an
unrolling, and then the score decides. -/
def rank (inst : Instance) (byConnectivity : Bool) (c : Clause) : Bool ×ₗ Bool ×ₗ ℤ :=
  toLex (c.isStrictNegative, toLex (c.fromUnrolling, inst.score byConnectivity c))

/-! ### The sorted clauses -/

/-- The negative clauses in ascending priority. -/
def sortedClauses (inst : Instance) (byConnectivity : Bool) : List Clause :=
  (inst.clauses.filter (·.isNegative)).mergeSort fun c d =>
    (inst.priority byConnectivity c).le (inst.priority byConnectivity d)

theorem sortedClauses_perm (inst : Instance) (byConnectivity : Bool) :
    (inst.sortedClauses byConnectivity).Perm (inst.clauses.filter (·.isNegative)) :=
  List.mergeSort_perm _ _

/-- Sorting the entries is sorting the clauses. -/
theorem splitOrder_eq (inst : Instance) (byConnectivity : Bool) :
    inst.splitOrder byConnectivity = (inst.sortedClauses byConnectivity).map (·.index) := by
  have hkeyed := List.map_mergeSort
    (r := fun c d => (inst.priority byConnectivity c).le (inst.priority byConnectivity d))
    (s := fun a b => a.1.le b.1) (f := fun c => (inst.priority byConnectivity c, c.index))
    (l := inst.clauses.filter (·.isNegative)) fun _ _ _ _ => rfl
  rw [splitOrder, ← hkeyed, List.map_map]
  rfl

theorem splitOrder_perm (inst : Instance) (byConnectivity : Bool) :
    (inst.splitOrder byConnectivity).Perm inst.negClauses := by
  rw [splitOrder_eq]
  exact (inst.sortedClauses_perm byConnectivity).map _

theorem pairwise_le_sortedClauses (inst : Instance) (byConnectivity : Bool) :
    (inst.sortedClauses byConnectivity).Pairwise fun c d =>
      (inst.priority byConnectivity c).le (inst.priority byConnectivity d) = true :=
  pairwise_mergeSort_key (fun c d => Priority.le_iff (inst.priority byConnectivity c)
    (inst.priority byConnectivity d)) _

/-- Clauses are in the table by their numbers. -/
theorem Indexed.pairwise_index (h : inst.Indexed) :
    inst.clauses.Pairwise fun c d => c.index < d.index := by
  rw [← List.pairwise_map, h.index]
  exact List.pairwise_lt_range

/-- The clause is listed before another one: it has the smaller priority, or it has the same
priority and the smaller number. -/
def Before (inst : Instance) (byConnectivity : Bool) (c d : Clause) : Prop :=
  inst.rank byConnectivity c < inst.rank byConnectivity d ∨
    inst.rank byConnectivity c = inst.rank byConnectivity d ∧ c.index < d.index

theorem Before.asymm {c d : Clause} (h : inst.Before byConnectivity c d) :
    ¬inst.Before byConnectivity d c := by
  rintro (h' | ⟨heq, h'⟩)
  · rcases h with h | ⟨heq, -⟩
    · exact h.asymm h'
    · exact h'.ne heq.symm
  · rcases h with h | ⟨-, h⟩
    · exact h.ne heq.symm
    · exact h.asymm h'

/-- Without connectivity the numbers decide among clauses that are alike. -/
theorem before_false_iff {c d : Clause} (hclass : c.isStrictNegative = d.isStrictNegative)
    (hunrolling : c.fromUnrolling = d.fromUnrolling) :
    inst.Before false c d ↔ d.index < c.index := by
  have hlt : inst.rank false c < inst.rank false d ↔ d.index < c.index := by
    rw [rank, rank, hclass, hunrolling, Prod.Lex.toLex_lt_toLex, Prod.Lex.toLex_lt_toLex,
      score_false, score_false]
    simp
  -- Without connectivity the score is the number turned around, so equal ranks are equal numbers.
  have heq : inst.rank false c = inst.rank false d → c.index = d.index := by
    intro heq
    have hscore : inst.score false c = inst.score false d :=
      congrArg (fun r : Bool ×ₗ Bool ×ₗ ℤ => (ofLex (ofLex r).2).2) heq
    rw [score_false, score_false] at hscore
    omega
  rw [Before, hlt]
  constructor
  · rintro (h | ⟨hsame, h⟩)
    · exact h
    · exact absurd (heq hsame) h.ne
  · exact .inl

/-- **The sorted clauses are strictly ascending** in priorities and numbers. -/
theorem pairwise_sortedClauses (h : inst.Indexed) (byConnectivity : Bool) :
    (inst.sortedClauses byConnectivity).Pairwise (inst.Before byConnectivity) :=
  pairwise_mergeSort_ties (fun c d => Priority.le_iff (inst.priority byConnectivity c)
    (inst.priority byConnectivity d)) (h.pairwise_index.sublist List.filter_sublist)

/-- Clauses that are numbered are different. -/
theorem Indexed.nodup_negClauses (h : inst.Indexed) : inst.negClauses.Nodup := by
  have hall : (inst.clauses.map (·.index)).Nodup := by
    rw [h.index]
    exact List.nodup_range
  exact hall.sublist (List.filter_sublist.map _)

section Places

variable {c d : Clause}

theorem mem_sortedClauses (hc : c ∈ inst.clauses) (hneg : c.conclusion = none) :
    c ∈ inst.sortedClauses byConnectivity := by
  refine (inst.sortedClauses_perm byConnectivity).mem_iff.2 (List.mem_filter.2 ⟨hc, ?_⟩)
  rw [Clause.isNegative, hneg, Option.isNone_none]

theorem nodup_sortedClauses (h : inst.Indexed) (byConnectivity : Bool) :
    ((inst.sortedClauses byConnectivity).map (·.index)).Nodup := by
  rw [← splitOrder_eq]
  exact (inst.splitOrder_perm byConnectivity).nodup_iff.2 h.nodup_negClauses

/-- **Places in the list of negative clauses.** -/
theorem idxOf_splitOrder (h : inst.Indexed) (hc : c ∈ inst.clauses) (hd : d ∈ inst.clauses)
    (hcneg : c.conclusion = none) (hdneg : d.conclusion = none) :
    (inst.splitOrder byConnectivity).idxOf c.index <
        (inst.splitOrder byConnectivity).idxOf d.index ↔
      inst.Before byConnectivity c d := by
  rw [splitOrder_eq]
  exact idxOf_lt_iff (pairwise_sortedClauses h byConnectivity) (fun _ _ => Before.asymm)
    (nodup_sortedClauses h byConnectivity) (mem_sortedClauses hc hcneg) (mem_sortedClauses hd hdneg)

end Places

/-! ### The score -/

/-- A running sum that is set back to zero at some items is the sum over what comes after the last
of them. -/
theorem exists_suffix {α : Type} (resets : α → Bool) (weight : α → ℕ) (l : List α) :
    ∃ before after, l = before ++ after ∧ (∀ a ∈ before.getLast?, resets a = true) ∧
      (∀ a ∈ after, resets a = false) ∧
      l.foldl (fun total a => if resets a then 0 else total + weight a) 0 =
        (after.map weight).sum := by
  induction l using List.reverseRecOn with
  | nil => exact ⟨[], [], rfl, nofun, List.forall_mem_nil _, rfl⟩
  | append_singleton l a ih =>
    rw [List.foldl_append, List.foldl_cons, List.foldl_nil]
    by_cases ha : resets a = true
    · -- All that has been counted is forgotten.
      refine ⟨l ++ [a], [], (List.append_nil _).symm, ?_, List.forall_mem_nil _, if_pos ha⟩
      rw [List.getLast?_concat]
      rintro _ ⟨⟩
      exact ha
    · obtain ⟨before, after, rfl, hbefore, hafter, hsum⟩ := ih
      refine ⟨before, after ++ [a], List.append_assoc _ _ _, hbefore, ?_, ?_⟩
      · exact List.forall_mem_append.2
          ⟨hafter, List.forall_mem_singleton.2 (Bool.eq_false_of_not_eq_true ha)⟩
      · rw [if_neg ha, hsum, List.map_append, List.map_singleton, List.sum_append,
          List.sum_singleton]

/-- Some clause without predicates on the left concludes the predicate. -/
def Backed (inst : Instance) (p : Nat) : Prop :=
  ∃ d ∈ inst.clauses, d.usedPreds = [] ∧ ∃ args, d.conclusion = some (p, args)

/-- The number of clauses with a conclusion that have the predicate on the left. -/
def continuations (inst : Instance) (p : Nat) : ℕ :=
  inst.clauses.countP fun d => d.conclusion.isSome && d.usedPreds.contains p

/-- What a table lists for a predicate are the clauses that mention it. -/
theorem getD_indexOf (clauses : List Clause) (mentioned : Clause → List Nat) {n p : Nat}
    (h : ∀ c ∈ clauses, ∀ q ∈ mentioned c, q < n) :
    ((indexOf clauses mentioned n)[p]?).getD [] =
      (clauses.filter fun c => p ∈ mentioned c).map (·.index) := by
  rw [indexOf, List.getElem?_map]
  by_cases hp : p < n
  · rw [List.getElem?_range hp]
    rfl
  · -- A predicate that is not there is not mentioned.
    have hnone : clauses.filter (fun c => p ∈ mentioned c) = [] := by
      rw [List.filter_eq_nil_iff]
      intro c hc hmem
      exact hp (h c hc p (of_decide_eq_true hmem))
    rw [List.getElem?_eq_none (by rw [List.length_range]; omega), hnone]
    rfl

theorem mem_concludedPreds {c : Clause} {p : Nat} :
    p ∈ c.concludedPreds ↔ ∃ args, c.conclusion = some (p, args) := by
  unfold Clause.concludedPreds
  cases c.conclusion with
  | none => simp
  | some a =>
    obtain ⟨q, args⟩ := a
    simp [eq_comm]

theorem hasFact_iff (h : inst.Indexed) {p : Nat} : inst.hasFact p = true ↔ inst.Backed p := by
  unfold hasFact Backed
  rw [h.producers, getD_indexOf _ _ h.concludedPreds, List.any_map, List.any_eq_true]
  constructor
  -- The producers of a predicate are numbers of clauses, and the index looks them up.
  · rintro ⟨d, hd, hempty⟩
    obtain ⟨hd, hp⟩ := List.mem_filter.1 hd
    rw [Function.comp_apply, h.getElem?_index hd] at hempty
    exact ⟨d, hd, List.map_eq_nil_iff.2 (List.isEmpty_iff.1 hempty),
      mem_concludedPreds.1 (of_decide_eq_true hp)⟩
  · rintro ⟨d, hd, hempty, hp⟩
    refine ⟨d, List.mem_filter.2 ⟨hd, decide_eq_true (mem_concludedPreds.2 hp)⟩, ?_⟩
    rw [Function.comp_apply, h.getElem?_index hd]
    exact List.isEmpty_iff.2 (List.map_eq_nil_iff.1 hempty)

theorem consequences_eq (h : inst.Indexed) (p : Nat) :
    inst.consequences p = inst.continuations p := by
  unfold consequences continuations
  rw [h.users, getD_indexOf _ _ h.usedPreds, List.filter_map, List.length_map, List.filter_filter,
    ← List.countP_eq_length_filter]
  apply List.countP_congr
  intro d hd
  rw [Function.comp_apply, h.getElem?_index hd]
  simp

/-- **The score by connectivity.** It counts what follows from the predicates on the left that come
after the last one backed by a fact. -/
theorem exists_connectivity (h : inst.Indexed) (c : Clause) :
    ∃ before after, c.usedPreds = before ++ after ∧ (∀ p ∈ before.getLast?, inst.Backed p) ∧
      (∀ p ∈ after, ¬inst.Backed p) ∧
      inst.connectivity c = (after.map inst.continuations).sum := by
  obtain ⟨before, after, hused, hbefore, hafter, hsum⟩ :=
    exists_suffix inst.hasFact inst.consequences c.usedPreds
  refine ⟨before, after, hused, fun p hp => (hasFact_iff h).1 (hbefore p hp),
    fun p hp hbacked => ?_, ?_⟩
  · exact Bool.false_ne_true ((hafter p hp).symm.trans ((hasFact_iff h).2 hbacked))
  · rw [connectivity, hsum]
    exact congrArg List.sum (List.map_congr_left fun p _ => consequences_eq h p)

/-- The clause that is added has the predicates of the given applications on the left, in the order
in which they occur first. -/
theorem usedPreds_of_addClause {inst' : Instance} {spec : ClauseSpec}
    (h : inst.addClause spec = .ok inst') :
    ∃ c, inst'.clauses = inst.clauses ++ [c] ∧
      c.usedPreds = (spec.apps.map (·.1.toNat)).eraseDups := by
  obtain ⟨apps, conclusion, happs, -, -, -, rfl⟩ := addClause_eq_ok.1 h
  refine ⟨_, rfl, (Uses.preds_group apps).trans ?_⟩
  rw [happs, List.map_map]
  rfl

end Instance
end Horn
