import Horn.Proofs.Act
import Horn.Proofs.Instance.WellFormed
import Horn.Proofs.Split.Holds

/-!
# What a splitter does

The steps of a splitter, one lemma for each operation.

* `Splitter.Keeps` is what all of them leave alone: the predicates and the clauses of the top-level
  instance, and the state of being open. The preprocessor only changes its own holds on the
  instance, so that the holds of others remain (`Splitter.HeldBesides`).
* `Splitter.Advances` says what producing a part does: a part is the instance itself, or what the
  preprocessor makes of the next clause. `advance_ok` shows that a successful production does
  nothing else, and that an open splitter only stops when nothing remains.
* `Progress.remaining` counts the parts still to come. Every production takes one away.
-/

namespace Horn

/-- The number of parts that are still to be produced. -/
def Progress.remaining : Progress → Nat
  | .active pending _ => pending.length
  | .inactive fired => if fired then 0 else 1

/-- When nothing remains, no clause is pending, or the only part has been produced. -/
theorem Progress.eq_of_remaining {prog : Progress} (h : prog.remaining = 0) :
    (∃ total, prog = .active [] total) ∨ prog = .inactive true := by
  cases prog with
  | active pending total =>
    obtain rfl : pending = [] := List.length_eq_zero_iff.1 h
    exact .inl ⟨total, rfl⟩
  | inactive fired =>
    cases fired with
    | true => exact .inr rfl
    | false => cases h

namespace Splitter

variable {κ : Type}

/-- What a splitter never changes while it works: the problem, and that it is open. -/
structure Keeps (sp sp' : Splitter κ) : Prop where
  preds : sp'.top.preds = sp.top.preds
  clauses : sp'.top.clauses = sp.top.clauses
  isOpen : sp'.isOpen = sp.isOpen
  total : sp'.total = sp.total

theorem Keeps.refl (sp : Splitter κ) : Keeps sp sp := ⟨rfl, rfl, rfl, rfl⟩

theorem Keeps.trans {sp sp' sp'' : Splitter κ} (h : Keeps sp sp') (h' : Keeps sp' sp'') :
    Keeps sp sp'' :=
  ⟨h'.preds.trans h.preds, h'.clauses.trans h.clauses, h'.isOpen.trans h.isOpen,
    h'.total.trans h.total⟩

/-- The top-level instance has so many holds that are not the preprocessor's. -/
def HeldBesides (sp : Splitter κ) (n : Nat) : Prop :=
  n + sp.preprocessor.holds.last ≤ sp.top.holders

/-- A splitter starts with the negative clauses as they are in the table, if they are several and
their priorities ascend. -/
theorem start_of_pairwise {inst : Instance} {config : SplitConfig}
    (henabled : config.enabled = true) (hseveral : 1 < inst.negClauses.length)
    (h : (inst.clauses.filter (·.isNegative)).Pairwise fun c d =>
      (inst.priority config.sort c).le (inst.priority config.sort d) = true) :
    start inst config = .active inst.negClauses inst.negClauses.length := by
  rw [start, henabled, decide_eq_true hseveral, Bool.and_self, if_pos rfl,
    Instance.splitOrder_of_pairwise h]

/-- A splitter starts with all negative clauses if there are several, and otherwise with the
instance as its only part. -/
theorem start_cases (inst : Instance) (config : SplitConfig) :
    (0 < (inst.splitOrder config.sort).length ∧ start inst config =
        .active (inst.splitOrder config.sort) (inst.splitOrder config.sort).length) ∨
      start inst config = .inactive false := by
  unfold start
  split
  · next h =>
    -- Splitting takes more than one negative clause.
    rw [Bool.and_eq_true, decide_eq_true_eq] at h
    refine .inl ⟨?_, rfl⟩
    rw [Instance.length_splitOrder]
    exact Nat.zero_lt_of_lt h.2
  · exact .inr rfl

/-! ### Producing a part -/

/-- A call of the preprocessor on a clause, with the world in which the splitter calls it. -/
def Preprocesses (p : Preprocessor κ) (w : World (Splitter κ)) (clause : Nat)
    (r : Except Fault Reduced) (v : World (Visitor κ)) : Prop :=
  (p.reduce w.1.held? clause w.1.isolated).runFrom (w.1.preprocessor, w.2) = (r, v)

/-- The splitter after the preprocessor has been called. -/
def visited (sp : Splitter κ) (v : Visitor κ) : Splitter κ :=
  { sp with
    preprocessor := v
    top := sp.top.rehold sp.preprocessor.holds.last v.holds.last }

/-- What producing a part does. -/
inductive Advances (p : Preprocessor κ) (w : World (Splitter κ)) :
    Reduced → World (Splitter κ) → Prop
  | whole {w' : World (Splitter κ)} : w.1.progress = .inactive false →
      w'.1 = { w.1 with progress := .inactive true } → Advances p w .whole w'
  | isolated {w' : World (Splitter κ)} {r : Reduced} {pending : List Nat} {clause total : Nat}
      {v : World (Visitor κ)} : w.1.progress = .active (pending ++ [clause]) total →
      Preprocesses p ({ w.1 with progress := .active pending total }, w.2) clause (.ok r) v →
      w'.1 = { w.1.visited v.1 with
        progress := .active pending total
        isolated := insertIndex clause w.1.isolated } → Advances p w r w'

/-- Running the preprocessor on a clause. -/
theorem runFrom_reduce {p : Preprocessor κ} {w : World (Splitter κ)} {clause : Nat}
    {r : Except Fault Reduced} {v : World (Visitor κ)} (h : Preprocesses p w clause r v) :
    (reduce p clause).runFrom w =
      (match r with
      | .ok reduced => .ok reduced
      | .error cause => .error (.splitting clause cause), w.1.visited v.1, v.2) := by
  unfold reduce
  rw [Act.runFrom_bind_of_ok (Act.runFrom_get w)]
  -- The preprocessor works on its own part of the state, and its holds are settled.
  have hzoom : (Act.zoom (fun s : Splitter κ => s.preprocessor)
      (fun s v => { s with
        preprocessor := v
        top := s.top.rehold s.preprocessor.holds.last v.holds.last })
      (Act.attempt (p.reduce w.1.held? clause w.1.isolated))).runFrom w =
        (.ok r, w.1.visited v.1, v.2) := by
    rw [Act.runFrom_zoom, Act.runFrom_attempt, h]
    rfl
  rw [Act.runFrom_bind_of_ok hzoom]
  -- A failure is reported with the clause that it is about.
  cases r <;> rfl

/-- **A production.** A part that an open splitter produces is the instance itself or what the
preprocessor makes of the next clause; without a part nothing remains and nothing happens. -/
theorem advance_ok {p : Preprocessor κ} {w w' : World (Splitter κ)} {answer : Option Reduced}
    (hopen : w.1.isOpen = true) (h : (advance p).runFrom w = (.ok answer, w')) :
    (answer = none ∧ w.1.progress.remaining = 0 ∧ w' = w) ∨
      ∃ r, answer = some r ∧ Advances p w r w' := by
  unfold advance at h
  rw [Act.runFrom_bind_of_ok (Act.runFrom_get w)] at h
  split at h
  case h_1 hprog =>
    cases h
    exact .inl ⟨rfl, by rw [hprog]; rfl, rfl⟩
  case h_2 hprog =>
    have hheld : w.1.held? = some w.1.top := if_pos hopen
    rw [Act.runFrom_bind_of_ok (Act.runFrom_set _ w), hheld] at h
    cases h
    exact .inr ⟨.whole, rfl, .whole hprog rfl⟩
  case h_3 pending total hprog =>
    split at h
    · next hnone =>
      cases h
      rw [List.getLast?_eq_none_iff] at hnone
      exact .inl ⟨rfl, by rw [hprog, hnone]; rfl, rfl⟩
    · next clause hlast =>
      -- The next clause stands at the end.
      obtain ⟨init, rfl⟩ := List.getLast?_eq_some_iff.1 hlast
      rw [List.dropLast_concat] at h
      rw [Act.runFrom_bind_of_ok (Act.runFrom_set _ w)] at h
      obtain ⟨r, w₁, h₁, h⟩ := Act.runFrom_bind_ok.1 h
      obtain ⟨x, v, hv⟩ : ∃ x v, Preprocesses p
        ({ w.1 with progress := .active init total }, w.2) clause x v := ⟨_, _, rfl⟩
      rw [runFrom_reduce hv] at h₁
      cases x with
      -- A failure of the preprocessor is one of the production.
      | error cause => cases h₁
      | ok reduced =>
        cases h₁
        cases h
        exact .inr ⟨r, rfl, .isolated hprog hv rfl⟩

/-- A new splitter announces at least as many parts as remain. -/
theorem remaining_create (inst : Instance) (config : SplitConfig) (v : κ) :
    (create inst config v).progress.remaining ≤ (create inst config v).total := by
  unfold create start
  dsimp only
  split <;> exact Nat.le_refl _

/-- The next clause is the last one that is pending. -/
theorem peek_eq {sp : Splitter κ} {pending : List Nat} {clause total : Nat}
    (h : sp.progress = .active (pending ++ [clause]) total) :
    sp.peek = some ⟨clause, total - (pending ++ [clause]).length, total⟩ := by
  rw [peek, h]
  simp

/-- Producing a part keeps the problem. -/
theorem Advances.keeps {p : Preprocessor κ} {w w' : World (Splitter κ)} {r : Reduced}
    (h : Advances p w r w') : Keeps w.1 w'.1 := by
  cases h with
  | whole _ hw => rw [hw]; exact ⟨rfl, rfl, rfl, rfl⟩
  | isolated _ _ hw => rw [hw]; exact ⟨rfl, rfl, rfl, rfl⟩

/-- Producing a part takes one away. -/
theorem Advances.remaining {p : Preprocessor κ} {w w' : World (Splitter κ)} {r : Reduced}
    (h : Advances p w r w') : w'.1.progress.remaining + 1 = w.1.progress.remaining := by
  cases h with
  | whole hprog hw =>
    rw [hw, hprog]
    rfl
  | isolated hprog _ hw =>
    rw [hw, hprog]
    simp [Progress.remaining]

/-- Whether or not it fails, producing a part keeps the problem. -/
theorem keeps_advance (p : Preprocessor κ) (w : World (Splitter κ)) :
    Keeps w.1 ((advance p).runFrom w).2.1 := by
  unfold advance
  rw [Act.runFrom_bind_of_ok (Act.runFrom_get w)]
  split
  case h_1 => exact .refl _
  case h_2 => exact ⟨rfl, rfl, rfl, rfl⟩
  case h_3 pending total hprog =>
    split
    · exact .refl _
    · next clause _ =>
      obtain ⟨r, v, hv⟩ : ∃ r v, Preprocesses p
        ({ w.1 with progress := .active pending.dropLast total }, w.2) clause r v := ⟨_, _, rfl⟩
      rw [Act.runFrom_bind_of_ok (Act.runFrom_set _ w), Act.runFrom_bind, runFrom_reduce hv]
      -- The preprocessor may change its holds, also when it fails.
      cases r <;> exact ⟨rfl, rfl, rfl, rfl⟩

/-- Whether or not it fails, producing a part leaves the holds of others. -/
theorem heldBesides_advance (p : Preprocessor κ) {w : World (Splitter κ)} {n : Nat}
    (h : HeldBesides w.1 n) : HeldBesides ((advance p).runFrom w).2.1 n := by
  unfold advance
  rw [Act.runFrom_bind_of_ok (Act.runFrom_get w)]
  split
  case h_1 => exact h
  case h_2 => exact h
  case h_3 pending total hprog =>
    split
    · exact h
    · next clause _ =>
      obtain ⟨r, v, hv⟩ : ∃ r v, Preprocesses p
        ({ w.1 with progress := .active pending.dropLast total }, w.2) clause r v := ⟨_, _, rfl⟩
      rw [Act.runFrom_bind_of_ok (Act.runFrom_set _ w), Act.runFrom_bind, runFrom_reduce hv]
      cases r <;> exact Instance.le_rehold _ h

/-- A splitter whose next clause is preprocessed without failure does not fail. -/
theorem advance_runs {p : Preprocessor κ} {w : World (Splitter κ)}
    (hpre : ∀ pending clause total, w.1.progress = .active (pending ++ [clause]) total →
      ∃ r v, Preprocesses p ({ w.1 with progress := .active pending total }, w.2)
        clause (.ok r) v) :
    ∃ answer w', (advance p).runFrom w = (.ok answer, w') := by
  unfold advance
  rw [Act.runFrom_bind_of_ok (Act.runFrom_get w)]
  split
  case h_1 => exact ⟨_, _, rfl⟩
  case h_2 => exact ⟨_, _, rfl⟩
  case h_3 pending total hprog =>
    split
    · exact ⟨_, _, rfl⟩
    · next clause hlast =>
      obtain ⟨init, rfl⟩ := List.getLast?_eq_some_iff.1 hlast
      -- Only the preprocessor could fail.
      obtain ⟨r, v, hv⟩ := hpre init clause total hprog
      rw [List.dropLast_concat, Act.runFrom_bind_of_ok (Act.runFrom_set _ w),
        Act.runFrom_bind_of_ok (runFrom_reduce hv)]
      exact ⟨_, _, rfl⟩

end Splitter
end Horn
