import Horn.Act
import Mathlib.Data.List.Forall2

/-!
# Running computations

`Act.runFrom` runs a computation from a *world*, a state together with the records that have been
written so far, and answers with the result and the next world. Each building block of computations
has one equation for its run, and `Act.runFrom_bind_ok` takes a successful run of two computations
in a row apart: the first one succeeds, and the second one goes on from the world that it leaves.
-/

namespace Horn

/-! ### Results -/

/-- A sequence of two results is a success if both are. -/
theorem bind_eq_ok {ε α β : Type} {x : Except ε α} {f : α → Except ε β} {b : β} :
    x >>= f = .ok b ↔ ∃ a, x = .ok a ∧ f a = .ok b := by
  cases x with
  | error e =>
    constructor
    · intro h
      cases h
    · rintro ⟨_, h, -⟩
      cases h
  | ok a =>
    constructor
    · intro h
      exact ⟨a, rfl, h⟩
    · rintro ⟨_, ha, h⟩
      cases ha
      exact h

theorem map_eq_ok {ε α β : Type} {x : Except ε α} {f : α → β} {b : β} :
    f <$> x = .ok b ↔ ∃ a, x = .ok a ∧ f a = b := by
  cases x with
  | error e => exact ⟨nofun, nofun⟩
  | ok a => exact ⟨fun h => ⟨a, rfl, Except.ok.inj h⟩, fun ⟨_, ha, h⟩ => by cases ha; rw [← h]; rfl⟩

@[simp] theorem ok_bind {ε α β : Type} (a : α) (f : α → Except ε β) :
    (Except.ok a).bind f = f a := rfl

/-- What every step of a loop preserves holds after the loop, if that succeeds. -/
theorem foldlM_ok {ε α β : Type} {P : β → Prop} {f : β → α → Except ε β} {l : List α} {b b' : β}
    (h : l.foldlM f b = .ok b') (hb : P b)
    (hstep : ∀ a ∈ l, ∀ b b', P b → f b a = .ok b' → P b') : P b' := by
  induction l generalizing b with
  | nil =>
    cases h
    exact hb
  | cons a l ih =>
    rw [List.foldlM_cons] at h
    obtain ⟨c, hc, h⟩ := bind_eq_ok.1 h
    rw [List.forall_mem_cons] at hstep
    exact ih h (hstep.1 b c hb hc) hstep.2

/-- Failures are renamed only. -/
theorem mapError_eq_ok {ε ε' α : Type} {x : Except ε α} {f : ε → ε'} {a : α} :
    x.mapError f = .ok a ↔ x = .ok a := by
  cases x with
  | error e => exact ⟨nofun, nofun⟩
  | ok b => exact ⟨fun h => congrArg Except.ok (Except.ok.inj h), fun h => congrArg _ h⟩

/-- A map over a list succeeds if it does at each item. -/
theorem mapM_eq_ok {ε α β : Type} {f : α → Except ε β} {as : List α} {bs : List β} :
    as.mapM f = .ok bs ↔ List.Forall₂ (fun a b => f a = .ok b) as bs := by
  induction as generalizing bs with
  | nil =>
    rw [List.mapM_nil, List.forall₂_nil_left_iff]
    constructor
    · rintro ⟨⟩
      rfl
    · rintro rfl
      rfl
  | cons a as ih =>
    rw [List.mapM_cons, List.forall₂_cons_left_iff]
    constructor
    · intro h
      obtain ⟨b, hb, h⟩ := bind_eq_ok.1 h
      obtain ⟨bs', hbs, h⟩ := bind_eq_ok.1 h
      cases h
      exact ⟨b, bs', hb, ih.1 hbs, rfl⟩
    · rintro ⟨b, bs', hb, hbs, rfl⟩
      rw [hb, ih.2 hbs]
      rfl

/-- A map over a list none of whose items fails does not fail. -/
theorem exists_mapM_eq_ok {ε α β : Type} {f : α → Except ε β} {as : List α}
    (h : ∀ a ∈ as, ∃ b, f a = .ok b) : ∃ bs, as.mapM f = .ok bs := by
  induction as with
  | nil => exact ⟨[], rfl⟩
  | cons a as ih =>
    rw [List.forall_mem_cons] at h
    obtain ⟨b, hb⟩ := h.1
    obtain ⟨bs, hbs⟩ := ih h.2
    exact ⟨b :: bs, mapM_eq_ok.2 (.cons hb (mapM_eq_ok.1 hbs))⟩

/-- A loop none of whose steps fails does not fail. -/
theorem forM_eq_ok {ε α : Type} {f : α → Except ε PUnit} {l : List α}
    (h : ∀ a ∈ l, f a = .ok ⟨⟩) : l.forM f = .ok ⟨⟩ := by
  induction l with
  | nil => rfl
  | cons a l ih =>
    rw [List.forall_mem_cons] at h
    rw [List.forM_eq_forM, List.forM_cons, h.1]
    exact ih h.2

/-- A loop that does not fail fails at no item. -/
theorem forM_ok {ε α : Type} {f : α → Except ε Unit} {l : List α} {u : Unit}
    (h : l.forM f = .ok u) : ∀ a ∈ l, f a = .ok () := by
  induction l with
  | nil => exact List.forall_mem_nil _
  | cons a l ih =>
    rw [List.forM_eq_forM, List.forM_cons] at h
    obtain ⟨_, ha, h⟩ := bind_eq_ok.1 h
    exact List.forall_mem_cons.2 ⟨ha, ih h⟩

/-! ### Faults -/

/-- All faults of a result have a property. -/
def Raises {α : Type} (P : Fault → Prop) (x : Except Fault α) : Prop := ∀ e, x = .error e → P e

section Raises

variable {α β : Type} {P : Fault → Prop}

theorem raises_ok (a : α) : Raises P (.ok a) := nofun

theorem raises_error {e : Fault} (h : P e) : Raises P (.error e : Except Fault α) := by
  rintro _ ⟨⟩
  exact h

theorem Raises.mono {Q : Fault → Prop} {x : Except Fault α} (h : Raises P x)
    (hPQ : ∀ e, P e → Q e) : Raises Q x := fun e he => hPQ e (h e he)

theorem Raises.bind {x : Except Fault α} {f : α → Except Fault β} (h : Raises P x)
    (h' : ∀ a, x = .ok a → Raises P (f a)) : Raises P (x.bind f) := by
  cases x with
  | error e => exact raises_error (h e rfl)
  | ok a => exact h' a rfl

theorem Raises.map {x : Except Fault α} (h : Raises P x) (f : α → β) : Raises P (x.map f) := by
  cases x with
  | error e => exact raises_error (h e rfl)
  | ok a => exact raises_ok _

theorem raises_mapM {f : α → Except Fault β} {l : List α} (h : ∀ a ∈ l, Raises P (f a)) :
    Raises P (l.mapM f) := by
  induction l with
  | nil => exact raises_ok _
  | cons a l ih =>
    rw [List.forall_mem_cons] at h
    rw [List.mapM_cons]
    exact h.1.bind fun b _ => (ih h.2).bind fun bs _ => raises_ok _

end Raises

/-! ### Worlds -/

/-- A state with the records that have been written so far. -/
abbrev World (σ : Type) := σ × Log

namespace Act

variable {σ τ α β : Type}

/-- Runs a computation from a world. -/
def runFrom (act : Act σ α) (w : World σ) : Except Fault α × World σ :=
  let ((r, s), log) := (act.run.run w.1).run w.2
  (r, s, log)

/-- Running from a state is running from the world without records. -/
theorem exec_eq (act : Act σ α) (s : σ) : act.exec s = act.runFrom (s, []) := rfl

/-! ### Sequences -/

@[simp] theorem runFrom_pure (a : α) (w : World σ) :
    (pure a : Act σ α).runFrom w = (.ok a, w) := rfl

@[simp] theorem runFrom_throw (e : Fault) (w : World σ) :
    (throw e : Act σ α).runFrom w = (.error e, w) := rfl

/-- After a first computation that succeeds the second one is run. -/
theorem runFrom_bind (act : Act σ α) (next : α → Act σ β) (w : World σ) :
    (act >>= next).runFrom w =
      match act.runFrom w with
      | (.ok a, w') => (next a).runFrom w'
      | (.error e, w') => (.error e, w') := by
  change runFrom (ExceptT.bind act next) w = _
  unfold runFrom ExceptT.bind ExceptT.run ExceptT.mk
  -- The monad is a stack of three; the outcome of the first computation decides.
  rcases h : StateT.run (StateT.run act w.1) w.2 with ⟨⟨r, s⟩, log⟩
  cases r <;> simp [StateT.run_bind, h, ExceptT.bindCont] <;> rfl

/-- A sequence succeeds if its first part does and then its second part. -/
theorem runFrom_bind_ok {act : Act σ α} {next : α → Act σ β} {w w'' : World σ} {b : β} :
    (act >>= next).runFrom w = (.ok b, w'') ↔
      ∃ a w', act.runFrom w = (.ok a, w') ∧ (next a).runFrom w' = (.ok b, w'') := by
  rw [runFrom_bind]
  rcases act.runFrom w with ⟨_ | a, w'⟩
  · simp
  · constructor
    · intro h
      exact ⟨a, w', rfl, h⟩
    · rintro ⟨a', w'', h, h'⟩
      obtain ⟨ha, hw⟩ := Prod.mk.inj h
      rw [Except.ok.injEq] at ha
      rwa [← ha, ← hw] at h'

/-- A sequence whose first part succeeds. -/
theorem runFrom_bind_of_ok {act : Act σ α} {w w' : World σ} {a : α}
    (h : act.runFrom w = (.ok a, w')) (next : α → Act σ β) :
    (act >>= next).runFrom w = (next a).runFrom w' := by
  rw [runFrom_bind, h]

@[simp] theorem runFrom_map (f : α → β) (act : Act σ α) (w : World σ) :
    (f <$> act).runFrom w = ((act.runFrom w).1.map f, (act.runFrom w).2) := by
  rw [← bind_pure_comp, runFrom_bind]
  rcases act.runFrom w with ⟨_ | a, w'⟩ <;> rfl

/-! ### State and records -/

@[simp] theorem runFrom_get (w : World σ) : (get : Act σ σ).runFrom w = (.ok w.1, w) := rfl

@[simp] theorem runFrom_set (s : σ) (w : World σ) :
    (set s : Act σ PUnit).runFrom w = (.ok ⟨⟩, s, w.2) := rfl

@[simp] theorem runFrom_modify (f : σ → σ) (w : World σ) :
    (modify f : Act σ PUnit).runFrom w = (.ok ⟨⟩, f w.1, w.2) := rfl

@[simp] theorem runFrom_write (r : Log.Record) (w : World σ) :
    (write r : Act σ Unit).runFrom w = (.ok (), w.1, w.2 ++ [r]) := rfl

@[simp] theorem runFrom_debug (c : Log.Channel) (t : String) (w : World σ) :
    (debug c t : Act σ Unit).runFrom w = (.ok (), w.1, w.2 ++ [⟨.debug, c, t, false⟩]) := rfl

@[simp] theorem runFrom_info (c : Log.Channel) (t : String) (w : World σ) :
    (info c t : Act σ Unit).runFrom w = (.ok (), w.1, w.2 ++ [⟨.info, c, t, false⟩]) := rfl

@[simp] theorem runFrom_debugTimed (c : Log.Channel) (t : String) (w : World σ) :
    (debugTimed c t : Act σ Unit).runFrom w = (.ok (), w.1, w.2 ++ [⟨.debug, c, t, true⟩]) := rfl

/-- Writing records one after the other appends them. -/
@[simp] theorem runFrom_forM_write (log : Log) (w : World σ) :
    (log.forM write : Act σ PUnit).runFrom w = (.ok ⟨⟩, w.1, w.2 ++ log) := by
  induction log generalizing w with
  | nil => simp
  | cons r log ih =>
    -- The two forms of the loop are the same one.
    rw [List.forM_eq_forM] at ih ⊢
    rw [List.forM_cons, runFrom_bind_of_ok (runFrom_write r w), ih, List.append_assoc]
    rfl

/-! ### Parts and failures -/

@[simp] theorem runFrom_ofExcept (r : Except Fault α) (w : World σ) :
    (ofExcept r : Act σ α).runFrom w = (r, w) := rfl

/-- A loop whose steps leave the world alone. -/
theorem runFrom_mapM {f : α → Act σ β} {g : α → Except Fault β} {l : List α} {w : World σ}
    (h : ∀ a ∈ l, (f a).runFrom w = (g a, w)) : (l.mapM f).runFrom w = (l.mapM g, w) := by
  induction l with
  | nil => rfl
  | cons a l ih =>
    rw [List.forall_mem_cons] at h
    rw [List.mapM_cons, List.mapM_cons, runFrom_bind, h.1]
    cases g a with
    | error e => rfl
    | ok b =>
      dsimp only
      rw [runFrom_bind, ih h.2]
      cases l.mapM g <;> rfl

/-- A computation on a part of the state changes that part only. -/
theorem runFrom_zoom (view : τ → σ) (update : τ → σ → τ) (act : Act σ α) (w : World τ) :
    (zoom view update act).runFrom w =
      ((act.runFrom (view w.1, w.2)).1, update w.1 (act.runFrom (view w.1, w.2)).2.1,
        (act.runFrom (view w.1, w.2)).2.2) := rfl

/-- The outcome of a computation as a value. -/
theorem runFrom_attempt (act : Act σ α) (w : World σ) :
    (attempt act).runFrom w = (.ok (act.runFrom w).1, (act.runFrom w).2) := rfl

/-- What is run at the end is run in any case. -/
theorem runFrom_finally' (act : Act σ α) (after : Act σ Unit) (w : World σ) :
    (finally' act after).runFrom w =
      match after.runFrom (act.runFrom w).2 with
      | (.ok (), w') => ((act.runFrom w).1, w')
      | (.error e, w') => (.error e, w') := by
  unfold finally'
  rw [runFrom_bind, runFrom_attempt]
  dsimp only
  rw [runFrom_bind]
  rcases after.runFrom (act.runFrom w).2 with ⟨_ | _, w'⟩ <;> rfl

end Act
end Horn
