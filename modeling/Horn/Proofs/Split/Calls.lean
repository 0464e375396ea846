import Horn.Proofs.Split.Splitter

/-!
# The calls of a splitter

A splitter works through an *agenda* (`Splitter.agenda`): the negative clauses in the order of the
splits, or only the instance itself. Each clause of the agenda takes one call of the preprocessor.
A call is kept with all that was exchanged (`Reduction`), and `Reduction.Calls` says that a list of
calls, made one after the other, leads the preprocessor from one state to another.

* `exists_takes` says all that a production does, whether or not the preprocessor fails.
* `Splitter.Stands` is where a splitter stands after a number of productions: what was called, what
  is left of the agenda, and which clauses count as isolated. Every production is the one that
  is due (`Stands.turn`), and takes one item off the agenda (`Stands.next`).
-/

namespace Horn

variable {κ : Type}

/-! ### Ascending lists -/

namespace Splitter

/-- Putting an index in its place adds it, unless it is there. -/
theorem mem_insertIndex {i j : Nat} {l : List Nat} : j ∈ insertIndex i l ↔ j = i ∨ j ∈ l := by
  induction l with
  | nil => simp [insertIndex]
  | cons k l ih =>
    unfold insertIndex
    split
    · simp
    · split
      · next h => simp [h]
      · simp only [List.mem_cons, ih]
        tauto

/-- A new index makes the list longer by one item. -/
theorem insertIndex_perm {i : Nat} {l : List Nat} (h : i ∉ l) :
    (insertIndex i l).Perm (i :: l) := by
  induction l with
  | nil => exact .refl _
  | cons k l ih =>
    have hk : i ≠ k := fun hik => h (List.mem_cons.2 (.inl hik))
    have hl : i ∉ l := fun hil => h (List.mem_cons_of_mem k hil)
    unfold insertIndex
    rw [if_neg hk]
    split
    · exact .refl _
    · exact ((ih hl).cons k).trans (.swap i k l)

/-- An ascending list stays one. -/
theorem pairwise_insertIndex {i : Nat} {l : List Nat} (h : l.Pairwise (· < ·)) :
    (insertIndex i l).Pairwise (· < ·) := by
  induction l with
  | nil => exact List.pairwise_singleton _ _
  | cons k l ih =>
    obtain ⟨hk, hl⟩ := List.pairwise_cons.1 h
    unfold insertIndex
    split
    -- `i` goes to the front: below `k` it is below all that follow `k`.
    · next hik =>
      refine List.pairwise_cons.2 ⟨fun j hj => ?_, h⟩
      rcases List.mem_cons.1 hj with rfl | hj
      · exact hik
      · exact Nat.lt_trans hik (hk j hj)
    -- Equal numbers are merged, a greater one goes further down and stays above `k` there.
    · split
      · exact h
      · next hik hne =>
        refine List.pairwise_cons.2 ⟨fun j hj => ?_, ih hl⟩
        rcases mem_insertIndex.1 hj with rfl | hj
        · omega
        · exact hk j hj

end Splitter

/-! ### Calls of the preprocessor -/

/-- A call of the preprocessor: the instance, the clause and the isolated clauses that it is given,
its answer, and the number of holds that it has on the instance after the call. -/
structure Reduction where
  top : Instance
  clause : Nat
  excluded : List Nat
  answer : Except Fault Reduced
  holds : Nat

namespace Reduction

/-- The call is made in a state of the preprocessor, and leaves another one. -/
def Made (p : Preprocessor κ) (c : Reduction) (v v' : Visitor κ) : Prop :=
  c.holds = v'.holds.last ∧
    ∃ log log', (p.reduce (some c.top) c.clause c.excluded).runFrom (v, log) =
      (c.answer, v', log')

/-- Calls that are made one after the other lead from a state of the preprocessor to another one. -/
inductive Calls (p : Preprocessor κ) : Visitor κ → List Reduction → Visitor κ → Prop
  | none (v : Visitor κ) : Calls p v [] v
  | snoc {v v' v'' : Visitor κ} {cs : List Reduction} {c : Reduction} :
      Calls p v cs v' → c.Made p v' v'' → Calls p v (cs ++ [c]) v''

/-- The holds on the instance after some calls; at first there are none. -/
def heldAfter (cs : List Reduction) : Nat := (cs.getLast?.map (·.holds)).getD 0

/-- These are the holds in the state of the preprocessor. -/
theorem Calls.last_eq {p : Preprocessor κ} {own : κ} {v : Visitor κ} {cs : List Reduction}
    (h : Calls p ⟨own, 0⟩ cs v) : v.holds.last = heldAfter cs := by
  cases h with
  | none => rfl
  | @snoc _ _ cs c _ hmade =>
    rw [heldAfter, List.getLast?_concat]
    exact hmade.1.symm

/-- What is produced: a failure of the preprocessor is one of splitting on the clause. -/
def produced (c : Reduction) : Except Fault Reduced :=
  c.answer.mapError (Fault.splitting c.clause)

/-- The clauses that some calls have isolated, in ascending order. -/
def isolated (cs : List Reduction) : List Nat :=
  cs.foldl (fun l c => if c.answer.isOk then Splitter.insertIndex c.clause l else l) []

@[simp] theorem isolated_nil : isolated [] = [] := rfl

theorem isolated_concat (cs : List Reduction) (c : Reduction) : isolated (cs ++ [c]) =
    if c.answer.isOk then Splitter.insertIndex c.clause (isolated cs) else isolated cs := by
  simp [isolated]

/-- The isolated clauses are those whose calls did not fail. -/
theorem mem_isolated {cs : List Reduction} {i : Nat} :
    i ∈ isolated cs ↔ ∃ c ∈ cs, c.answer.isOk = true ∧ c.clause = i := by
  induction cs using List.reverseRecOn with
  | nil => simp
  | append_singleton cs c ih =>
    rw [isolated_concat]
    split
    · next hc =>
      rw [Splitter.mem_insertIndex, ih]
      constructor
      · rintro (rfl | ⟨d, hd, hi⟩)
        · exact ⟨c, by simp, hc, rfl⟩
        · exact ⟨d, by simp [hd], hi⟩
      · rintro ⟨d, hd, hdok, rfl⟩
        rcases List.mem_append.1 hd with hd | hd
        · exact .inr ⟨d, hd, hdok, rfl⟩
        · rw [List.mem_singleton] at hd
          exact .inl (congrArg _ hd)
    · next hc =>
      rw [ih]
      constructor
      · rintro ⟨d, hd, hi⟩
        exact ⟨d, by simp [hd], hi⟩
      · rintro ⟨d, hd, hdok, hi⟩
        rcases List.mem_append.1 hd with hd | hd
        · exact ⟨d, hd, hdok, hi⟩
        · -- The last call has failed.
          rw [List.mem_singleton] at hd
          exact absurd (hd ▸ hdok) hc

theorem pairwise_isolated (cs : List Reduction) : (isolated cs).Pairwise (· < ·) := by
  induction cs using List.reverseRecOn with
  | nil => exact .nil
  | append_singleton cs c ih =>
    rw [isolated_concat]
    split
    · exact Splitter.pairwise_insertIndex ih
    · exact ih

/-- Calls on different clauses isolate one clause each, unless they fail. -/
theorem isolated_perm {cs : List Reduction} (h : (cs.map (·.clause)).Nodup) :
    (isolated cs).Perm ((cs.filter (·.answer.isOk)).map (·.clause)) := by
  induction cs using List.reverseRecOn with
  | nil => exact .refl _
  | append_singleton cs c ih =>
    rw [List.map_append, List.nodup_append] at h
    -- A call before this one would have isolated the same clause only if it was on that clause.
    have hc : c.clause ∉ isolated cs := by
      intro hmem
      obtain ⟨d, hd, -, hdc⟩ := mem_isolated.1 hmem
      exact h.2.2 _ (List.mem_map_of_mem hd) _ (by simp) hdc
    rw [isolated_concat, List.filter_append, List.map_append]
    -- A call that fails isolates nothing, so both sides stay as they were.
    by_cases hok : c.answer.isOk
    · have hone : ([c].filter (·.answer.isOk)).map (·.clause) = [c.clause] := by simp [hok]
      rw [if_pos hok, hone]
      refine (Splitter.insertIndex_perm hc).trans ?_
      exact ((ih h.1).cons c.clause).trans (List.perm_append_singleton _ _).symm
    · have hnone : ([c].filter (·.answer.isOk)).map (·.clause) = [] := by simp [hok]
      rw [if_neg hok, hnone, List.append_nil]
      exact ih h.1

end Reduction

/-! ### Productions -/

/-- The parts that are still to be produced: the clauses to isolate, the next one first, or the
instance itself. -/
def Progress.agenda : Progress → List (Option Nat)
  | .active pending _ => pending.reverse.map some
  | .inactive fired => if fired then [] else [none]

namespace Splitter

/-- What the production of a part consists in. -/
inductive Turn where
  /-- Everything has been produced. -/
  | spent
  /-- The instance itself is handed over. -/
  | whole
  /-- The preprocessor is called. -/
  | call (c : Reduction)

/-- What a production answers. -/
def Turn.answer : Turn → Except Fault (Option Reduced)
  | .spent => .ok none
  | .whole => .ok (some .whole)
  | .call c => c.produced.map some

/-- The calls that a production makes. -/
def Turn.calls : Turn → List Reduction
  | .call c => [c]
  | _ => []

@[simp] theorem Turn.calls_spent : Turn.spent.calls = [] := rfl

@[simp] theorem Turn.calls_whole : Turn.whole.calls = [] := rfl

@[simp] theorem Turn.calls_call (c : Reduction) : (Turn.call c).calls = [c] := rfl

/-- All that a production changes. A clause is off the list in any case, and it counts as isolated
if the preprocessor has not failed on it. -/
inductive Takes (p : Preprocessor κ) (s : Splitter κ) : Turn → Splitter κ → Prop
  | spent : s.progress.agenda = [] → Takes p s .spent s
  | whole : s.progress = .inactive false →
      Takes p s .whole { s with progress := .inactive true }
  | call {c : Reduction} {pending : List Nat} {total : Nat} {v : Visitor κ} :
      s.progress = .active (pending ++ [c.clause]) total → c.top = s.top →
      c.excluded = s.isolated → c.Made p s.preprocessor v →
      Takes p s (.call c) { s with
        progress := .active pending total
        preprocessor := v
        top := s.top.rehold s.preprocessor.holds.last c.holds
        isolated := if c.answer.isOk then insertIndex c.clause s.isolated else s.isolated }

/-- **A production**, in all cases. -/
theorem exists_takes (p : Preprocessor κ) {w : World (Splitter κ)} (hopen : w.1.isOpen = true) :
    ∃ t s' log, (advance p).runFrom w = (t.answer, s', log) ∧ Takes p w.1 t s' := by
  unfold advance
  rw [Act.runFrom_bind_of_ok (Act.runFrom_get w)]
  have hheld : w.1.held? = some w.1.top := if_pos hopen
  split
  case h_1 hprog =>
    refine ⟨.spent, _, _, rfl, .spent ?_⟩
    rw [hprog]
    rfl
  case h_2 hprog =>
    rw [Act.runFrom_bind_of_ok (Act.runFrom_set _ w), hheld]
    exact ⟨.whole, _, _, rfl, .whole hprog⟩
  case h_3 pending total hprog =>
    split
    · next hnone =>
      rw [List.getLast?_eq_none_iff] at hnone
      refine ⟨.spent, _, _, rfl, .spent ?_⟩
      rw [hprog, hnone]
      rfl
    · next clause hlast =>
      obtain ⟨init, rfl⟩ := List.getLast?_eq_some_iff.1 hlast
      rw [List.dropLast_concat, Act.runFrom_bind_of_ok (Act.runFrom_set _ w)]
      -- The call, as the splitter makes it after the clause has been taken off.
      obtain ⟨answer, v, hv⟩ : ∃ answer v, Preprocesses p
        ({ w.1 with progress := .active init total }, w.2) clause answer v := ⟨_, _, rfl⟩
      have hmade : (⟨w.1.top, clause, w.1.isolated, answer, v.1.holds.last⟩ : Reduction).Made p
          w.1.preprocessor v.1 := by
        unfold Preprocesses held? at hv
        dsimp only at hv
        rw [if_pos hopen] at hv
        exact ⟨rfl, w.2, v.2, hv⟩
      rw [Act.runFrom_bind, runFrom_reduce hv]
      cases answer with
      | error cause => exact ⟨.call ⟨_, _, _, _, _⟩, _, _, rfl, .call hprog rfl rfl hmade⟩
      | ok reduced => exact ⟨.call ⟨_, _, _, _, _⟩, _, _, rfl, .call hprog rfl rfl hmade⟩

/-! ### The agenda of a run -/

/-- The instance is split: this is asked for, and there is more than one negative clause. -/
def Splits (inst : Instance) (config : SplitConfig) : Prop :=
  config.enabled = true ∧ 1 < inst.negClauses.length

instance (inst : Instance) (config : SplitConfig) : Decidable (Splits inst config) := by
  unfold Splits
  infer_instance

/-- The clauses that are isolated, the first one first; none if the instance is not split. -/
def order (inst : Instance) (config : SplitConfig) : List Nat :=
  if Splits inst config then (inst.splitOrder config.sort).reverse else []

/-- The parts that a splitter produces: one for each clause to isolate, or the instance itself. -/
def agenda (inst : Instance) (config : SplitConfig) : List (Option Nat) :=
  if Splits inst config then (order inst config).map some else [none]

theorem order_of_splits {inst : Instance} {config : SplitConfig} (h : Splits inst config) :
    order inst config = (inst.splitOrder config.sort).reverse := if_pos h

theorem order_of_not_splits {inst : Instance} {config : SplitConfig} (h : ¬Splits inst config) :
    order inst config = [] := if_neg h

/-- How far a splitter has come after `k` productions. -/
def progressAfter (inst : Instance) (config : SplitConfig) (k : Nat) : Progress :=
  if Splits inst config then
    .active ((order inst config).drop k).reverse (order inst config).length
  else .inactive (decide (0 < k))

theorem progressAfter_of_splits {inst : Instance} {config : SplitConfig} {k : Nat}
    (h : Splits inst config) : progressAfter inst config k =
      .active ((order inst config).drop k).reverse (order inst config).length := if_pos h

theorem progressAfter_of_not_splits {inst : Instance} {config : SplitConfig} {k : Nat}
    (h : ¬Splits inst config) : progressAfter inst config k = .inactive (decide (0 < k)) := if_neg h

/-- A new splitter has produced nothing. -/
theorem start_eq (inst : Instance) (config : SplitConfig) :
    start inst config = progressAfter inst config 0 := by
  by_cases h : Splits inst config
  · have hstart : (config.enabled && decide (1 < inst.negClauses.length)) = true := by
      simpa [Splits] using h
    rw [start, if_pos hstart, progressAfter_of_splits h, order_of_splits h]
    simp
  · have hstart : ¬(config.enabled && decide (1 < inst.negClauses.length)) = true := by
      simpa [Splits] using h
    rw [start, if_neg hstart, progressAfter_of_not_splits h]
    rfl

/-- What is left after some productions. -/
theorem agenda_progressAfter (inst : Instance) (config : SplitConfig) (k : Nat) :
    (progressAfter inst config k).agenda = (agenda inst config).drop k := by
  by_cases h : Splits inst config
  · rw [progressAfter_of_splits h, agenda, if_pos h]
    simp [Progress.agenda]
  · rw [progressAfter_of_not_splits h, agenda, if_neg h]
    cases k <;> simp [Progress.agenda]

/-- Where a splitter stands after `k` productions with these calls. -/
structure Stands (p : Preprocessor κ) (inst : Instance) (config : SplitConfig) (v₀ : Visitor κ)
    (calls : List Reduction) (k : Nat) (s : Splitter κ) : Prop where
  isOpen : s.isOpen = true
  top : ∃ n, s.top = inst.held (n + 1 + s.preprocessor.holds.last)
  progress : s.progress = progressAfter inst config k
  clauses : calls.map (·.clause) = (order inst config).take k
  isolated : s.isolated = Reduction.isolated calls
  made : Reduction.Calls p v₀ calls s.preprocessor

section Stands

variable {p : Preprocessor κ} {inst : Instance} {config : SplitConfig} {v₀ : Visitor κ}
  {calls : List Reduction} {k : Nat} {s s' : Splitter κ} {t : Turn}

/-- A new splitter has produced nothing. -/
theorem stands_create (p : Preprocessor κ) (inst : Instance) (config : SplitConfig) (v₀ : κ) :
    Stands p inst config ⟨v₀, 0⟩ [] 0 (create inst config v₀) :=
  ⟨rfl, ⟨0, rfl⟩, start_eq inst config, by simp, rfl, .none _⟩

/-- What the agenda says of the next production. -/
def Turn.Due (inst : Instance) (config : SplitConfig) (calls : List Reduction) (k : Nat)
    (top : Instance) : Turn → Prop
  | .spent => (agenda inst config).length ≤ k
  | .whole => (agenda inst config)[k]? = some none
  | .call c => (agenda inst config)[k]? = some (some c.clause) ∧
      c.excluded = Reduction.isolated calls ∧ c.top = top

/-- The first item that is left decides what the next production is. -/
theorem Stands.turn (h : Stands p inst config v₀ calls k s) (ht : Takes p s t s') :
    t.Due inst config calls k s.top := by
  have hhead : (agenda inst config)[k]? = s.progress.agenda.head? := by
    rw [h.progress, agenda_progressAfter, List.head?_drop]
  cases ht with
  | spent hnone =>
    rw [hnone, List.head?_nil, List.getElem?_eq_none_iff] at hhead
    exact hhead
  | whole hprog =>
    rw [hprog] at hhead
    exact hhead
  | @call c pending total v hprog htop hexcluded _ =>
    have hfirst : (Progress.active (pending ++ [c.clause]) total).agenda.head? =
        some (some c.clause) := by simp [Progress.agenda]
    rw [hprog, hfirst] at hhead
    exact ⟨hhead, hexcluded.trans h.isolated, htop⟩

/-- A clause on the agenda is the one in the order of the clauses. -/
theorem order_getElem? {i : Nat} (h : (agenda inst config)[k]? = some (some i)) :
    (order inst config)[k]? = some i := by
  unfold agenda at h
  split at h
  · rw [List.getElem?_map, Option.map_eq_some_iff] at h
    obtain ⟨j, hj, hji⟩ := h
    rw [hj, hji]
  · -- Without a split the only item is the instance itself.
    cases k <;> simp at h

/-- Where the clauses that have been called end, when no further call is made. -/
theorem take_order_succ (h : ∀ i, (agenda inst config)[k]? ≠ some (some i)) :
    (order inst config).take (k + 1) = (order inst config).take k := by
  have hnone : (order inst config)[k]? = none := by
    cases hi : (order inst config)[k]? with
    | none => rfl
    | some i =>
      have hsplits : Splits inst config := by
        by_contra hnot
        rw [order_of_not_splits hnot] at hi
        cases hi
      refine absurd ?_ (h i)
      rw [agenda, if_pos hsplits, List.getElem?_map, hi, Option.map_some]
  rw [List.take_add_one, hnone, Option.toList_none, List.append_nil]

/-- Nothing changes any more when everything has been produced. -/
theorem progressAfter_succ (h : (agenda inst config).length ≤ k) :
    progressAfter inst config (k + 1) = progressAfter inst config k := by
  unfold agenda at h
  by_cases hsplits : Splits inst config
  · rw [if_pos hsplits, List.length_map] at h
    rw [progressAfter_of_splits hsplits, progressAfter_of_splits hsplits,
      List.drop_eq_nil_of_le h, List.drop_eq_nil_of_le (Nat.le_succ_of_le h)]
  · rw [if_neg hsplits, List.length_singleton] at h
    have hpos : 0 < k := h
    simp [progressAfter_of_not_splits hsplits, hpos]

/-- **A step of the splitter.** One more production takes one more item off the agenda. -/
theorem Stands.next (h : Stands p inst config v₀ calls k s) (ht : Takes p s t s') :
    Stands p inst config v₀ (calls ++ t.calls) (k + 1) s' := by
  have hturn := h.turn ht
  have hprogress := h.progress
  cases ht with
  | spent hnone =>
    have hlength : (agenda inst config).length ≤ k := hturn
    have hno : ∀ i, (agenda inst config)[k]? ≠ some (some i) := by
      intro i
      rw [List.getElem?_eq_none hlength]
      exact nofun
    rw [Turn.calls_spent, List.append_nil]
    refine ⟨h.isOpen, h.top, ?_, ?_, h.isolated, h.made⟩
    · rw [hprogress]
      exact (progressAfter_succ hlength).symm
    · rw [take_order_succ hno, h.clauses]
  | whole hprog =>
    have hitem : (agenda inst config)[k]? = some none := hturn
    have hno : ∀ i, (agenda inst config)[k]? ≠ some (some i) := by
      intro i
      rw [hitem]
      simp
    -- The instance itself is only produced where nothing is split.
    have hnot : ¬Splits inst config := by
      intro hsplits
      rw [hprogress, progressAfter_of_splits hsplits] at hprog
      cases hprog
    rw [Turn.calls_whole, List.append_nil]
    refine ⟨h.isOpen, h.top, ?_, ?_, h.isolated, h.made⟩
    · rw [progressAfter_of_not_splits hnot]
      simp
    · rw [take_order_succ hno, h.clauses]
  | @call c pending total v hprog htop hexcluded hmade =>
    obtain ⟨hitem, -, -⟩ := hturn
    have hsplits : Splits inst config := by
      by_contra hnot
      rw [hprogress, progressAfter_of_not_splits hnot] at hprog
      cases hprog
    rw [hprogress, progressAfter_of_splits hsplits, Progress.active.injEq] at hprog
    obtain ⟨hpending, rfl⟩ := hprog
    refine ⟨h.isOpen, ?_, ?_, ?_, ?_, h.made.snoc hmade⟩
    · obtain ⟨n, hn⟩ := h.top
      exact ⟨n, by rw [hn, Instance.rehold_held, hmade.1]⟩
    · have hrest : pending = ((order inst config).drop (k + 1)).reverse := by
        rw [← List.tail_drop, ← List.dropLast_reverse, hpending, List.dropLast_concat]
      rw [hrest, progressAfter_of_splits hsplits]
    · -- The call is made on the next clause of the order.
      rw [List.take_add_one, order_getElem? hitem, List.map_append, h.clauses]
      rfl
    · change _ = Reduction.isolated (calls ++ [c])
      rw [Reduction.isolated_concat, ← h.isolated]

/-- The next clause, with the number of those before it and of all. -/
theorem Stands.peek_eq (h : Stands p inst config v₀ calls k s) :
    s.peek = ((order inst config)[k]?).map fun c => ⟨c, k, (order inst config).length⟩ := by
  rw [peek, h.progress]
  by_cases hsplits : Splits inst config
  · rw [progressAfter_of_splits hsplits]
    dsimp only
    rw [List.getLast?_reverse, List.head?_drop, List.length_reverse, List.length_drop]
    cases hi : (order inst config)[k]? with
    | none => rfl
    | some i =>
      -- There is a clause left, so that the number of the pending ones tells the others.
      have hk : k < (order inst config).length := (List.getElem?_eq_some_iff.1 hi).1
      have hhandled : (order inst config).length - ((order inst config).length - k) = k := by omega
      rw [hhandled]
  · rw [progressAfter_of_not_splits hsplits, order_of_not_splits hsplits]
    rfl

end Stands

end Splitter
end Horn
