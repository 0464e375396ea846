import Horn.Proofs.Act

/-!
# Two runs side by side

Two runs that start from related states end *alike* (`Act.Alike`) if both fail with the same fault,
or both succeed with related answers; the states that they leave are related in either case. What
they record may differ.

Runs of sequences end alike if their parts do (`Act.Alike.bind`), and so do runs on a part of the
state (`Act.Alike.zoom`). If the engine refuses a call in the second run only, then the runs do not
end alike, but the second one is over (`Act.AlikeUnless`).

A computation that ends alike from one state, whatever has been recorded before, ignores the records
(`Act.IgnoresLog`).
-/

namespace Horn
namespace Act

variable {σ τ α β : Type}

/-- Two runs end alike: with one fault and states related by `E`, or with answers and states related
by `Q`. -/
inductive Alike (E : σ → σ → Prop) (Q : α → α → σ → σ → Prop) :
    Except Fault α × World σ → Except Fault α × World σ → Prop
  | failed {e : Fault} {w w' : World σ} : E w.1 w'.1 → Alike E Q (.error e, w) (.error e, w')
  | done {a a' : α} {w w' : World σ} : Q a a' w.1 w'.1 → Alike E Q (.ok a, w) (.ok a', w')

section Alike

variable {E : σ → σ → Prop} {Q : α → α → σ → σ → Prop} {R : β → β → σ → σ → Prop}

/-- The answer of a computation that needs no state. -/
theorem alike_ofExcept {r : Except Fault α} {w w' : World σ} (hE : E w.1 w'.1)
    (hQ : ∀ a, r = .ok a → Q a a w.1 w'.1) :
    Alike E Q ((ofExcept r).runFrom w) ((ofExcept r).runFrom w') := by
  rw [runFrom_ofExcept, runFrom_ofExcept]
  cases r with
  | error e => exact .failed hE
  | ok a => exact .done (hQ a rfl)

/-- Sequences end alike if the first parts do, and then the second parts from where these end. -/
theorem Alike.bind {act act' : Act σ α} {next next' : α → Act σ β} {w w' : World σ}
    (h : Alike E Q (act.runFrom w) (act'.runFrom w'))
    (hnext : ∀ {a a' w₁ w₁'}, Q a a' w₁.1 w₁'.1 →
      Alike E R ((next a).runFrom w₁) ((next' a').runFrom w₁')) :
    Alike E R ((act >>= next).runFrom w) ((act' >>= next').runFrom w') := by
  rw [runFrom_bind, runFrom_bind]
  generalize act.runFrom w = x, act'.runFrom w' = x' at h
  cases h with
  | failed hE => exact .failed hE
  | done hQ => exact hnext hQ

/-- Computations on a part of the state. -/
theorem Alike.zoom {view : τ → σ} {update : τ → σ → τ} {act act' : Act σ α} {w w' : World τ}
    {E' : τ → τ → Prop} {Q' : α → α → τ → τ → Prop}
    (h : Alike E Q (act.runFrom (view w.1, w.2)) (act'.runFrom (view w'.1, w'.2)))
    (hE : ∀ {s s'}, E s s' → E' (update w.1 s) (update w'.1 s'))
    (hQ : ∀ {a a' s s'}, Q a a' s s' → Q' a a' (update w.1 s) (update w'.1 s')) :
    Alike E' Q' ((zoom view update act).runFrom w) ((zoom view update act').runFrom w') := by
  rw [runFrom_zoom, runFrom_zoom]
  generalize act.runFrom (view w.1, w.2) = x, act'.runFrom (view w'.1, w'.2) = x' at h
  cases h with
  | failed h => exact .failed (hE h)
  | done h => exact .done (hQ h)

/-- Two runs end alike, unless the second one ends because the engine refuses a call, which may
happen if `refuses` is true. -/
def AlikeUnless (refuses : Prop) (E : σ → σ → Prop) (Q : α → α → σ → σ → Prop)
    (x x' : Except Fault α × World σ) : Prop :=
  Alike E Q x x' ∨ refuses ∧ x'.1 = .error .illSorted ∧ ∃ s, E s x'.2.1

/-- Sequences end alike unless one of their parts is refused in the second run. -/
theorem AlikeUnless.bind {refuses : Prop} {act act' : Act σ α} {next next' : α → Act σ β}
    {w w' : World σ} (h : AlikeUnless refuses E Q (act.runFrom w) (act'.runFrom w'))
    (hnext : ∀ {a a' w₁ w₁'}, act.runFrom w = (.ok a, w₁) → act'.runFrom w' = (.ok a', w₁') →
      Q a a' w₁.1 w₁'.1 →
      AlikeUnless refuses E R ((next a).runFrom w₁) ((next' a').runFrom w₁')) :
    AlikeUnless refuses E R ((act >>= next).runFrom w) ((act' >>= next').runFrom w') := by
  rw [runFrom_bind, runFrom_bind]
  generalize act.runFrom w = x, act'.runFrom w' = x' at h hnext ⊢
  obtain ⟨r', w₁'⟩ := x'
  rcases h with h | ⟨hrefuses, rfl, s, hE⟩
  · cases h with
    | failed hE => exact .inl (.failed hE)
    | done hQ => exact hnext rfl rfl hQ
  -- Whatever the first run goes on to do, the second one does not go on.
  · exact .inr ⟨hrefuses, rfl, s, hE⟩

end Alike

/-! ### Computations that ignore the records -/

/-- From one state a computation ends with one outcome and one state, whatever has been recorded. -/
def IgnoresLog (act : Act σ α) : Prop :=
  ∀ (s : σ) (log log' : Log), Alike (· = ·) (fun a a' s s' => a = a' ∧ s = s')
    (act.runFrom (s, log)) (act.runFrom (s, log'))

theorem ignoresLog_ofExcept (r : Except Fault α) : IgnoresLog (ofExcept r : Act σ α) :=
  fun _ _ _ => alike_ofExcept rfl fun _ _ => ⟨rfl, rfl⟩

theorem ignoresLog_pure (a : α) : IgnoresLog (pure a : Act σ α) := ignoresLog_ofExcept (.ok a)

theorem ignoresLog_throw (e : Fault) : IgnoresLog (throw e : Act σ α) :=
  ignoresLog_ofExcept (.error e)

theorem ignoresLog_get : IgnoresLog (get : Act σ σ) := fun _ _ _ => .done ⟨rfl, rfl⟩

theorem ignoresLog_set (s : σ) : IgnoresLog (set s : Act σ PUnit) := fun _ _ _ => .done ⟨rfl, rfl⟩

theorem ignoresLog_modify (f : σ → σ) : IgnoresLog (modify f : Act σ PUnit) :=
  fun _ _ _ => .done ⟨rfl, rfl⟩

theorem ignoresLog_write (record : Log.Record) : IgnoresLog (write record : Act σ Unit) :=
  fun _ _ _ => .done ⟨rfl, rfl⟩

theorem IgnoresLog.bind {act : Act σ α} {next : α → Act σ β} (h : act.IgnoresLog)
    (hnext : ∀ a, (next a).IgnoresLog) : (act >>= next).IgnoresLog := by
  intro s log log'
  refine (h s log log').bind fun {a a' w w'} hQ => ?_
  obtain ⟨rfl, hs⟩ := hQ
  -- The second computation starts from one state, too.
  obtain ⟨s₁, l₁⟩ := w
  obtain ⟨s₁', l₁'⟩ := w'
  obtain rfl : s₁ = s₁' := hs
  exact hnext a s₁ l₁ l₁'

theorem IgnoresLog.zoom {act : Act σ α} (h : act.IgnoresLog) (view : τ → σ) (update : τ → σ → τ) :
    (zoom view update act).IgnoresLog := fun t log log' =>
  (h (view t) log log').zoom (fun hE => congrArg (update t) hE)
    fun hQ => ⟨hQ.1, congrArg (update t) hQ.2⟩

theorem IgnoresLog.attempt {act : Act σ α} (h : act.IgnoresLog) : (attempt act).IgnoresLog := by
  intro s log log'
  rw [runFrom_attempt, runFrom_attempt]
  have hrun := h s log log'
  generalize act.runFrom (s, log) = x, act.runFrom (s, log') = x' at hrun
  cases hrun with
  | failed hE => exact .done ⟨rfl, hE⟩
  | done hQ => exact .done ⟨congrArg Except.ok hQ.1, hQ.2⟩

end Act
end Horn
