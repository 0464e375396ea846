import Horn.Oracle.Session
import Horn.Proofs.Act

/-!
# Scopes

What is run in a scope of its own leaves nothing behind. While the scope is open, the session is the
old one with some more assertions (`Session.Opens`); when it has been closed, however the
computation ended, the session is the old one up to the last model and the statistics
(`Session.runFrom_scope`).

Between the two, a computation that only asserts formulas is known by the list of these formulas, or
by its fault (`Session.Asserts`). Such computations are put together by `Asserts.bind` and
`Asserts.forM`, and what is answered afterwards is a function of the list (`Session.Answers`).
-/

namespace Horn

variable {α β : Type}

namespace Session

/-! ### Sessions that agree -/

/-- Two sessions differ in the last model and in the statistics at most. -/
structure Alike (s s' : Session) : Prop where
  name : s'.name = s.name
  timeout : s'.timeout = s.timeout
  inner : s'.inner = s.inner
  base : s'.base = s.base
  definitions : s'.definitions = s.definitions

namespace Alike

variable {s s' s'' : Session}

theorem refl (s : Session) : Alike s s := ⟨rfl, rfl, rfl, rfl, rfl⟩

theorem trans (h : Alike s s') (h' : Alike s' s'') : Alike s s'' :=
  ⟨h'.name.trans h.name, h'.timeout.trans h.timeout, h'.inner.trans h.inner,
    h'.base.trans h.base, h'.definitions.trans h.definitions⟩

theorem assertions (h : Alike s s') : s'.assertions = s.assertions := by
  unfold Session.assertions scopes
  rw [h.inner, h.base]

end Alike

/-! ### An open scope -/

/-- The session `s'` is `s` with one more scope, in which the formulas `ts` have been asserted. -/
structure Opens (s : Session) (ts : List Term) (s' : Session) : Prop where
  name : s'.name = s.name
  timeout : s'.timeout = s.timeout
  inner : ∃ declared, s'.inner = ⟨declared, ts⟩ :: s.inner
  base : s'.base = s.base
  definitions : s'.definitions = s.definitions

namespace Opens

variable {s s' : Session} {ts : List Term}

/-- What has been asserted in the scope comes last. -/
theorem assertions (h : Opens s ts s') : s'.assertions = s.assertions ++ ts := by
  obtain ⟨declared, hinner⟩ := h.inner
  unfold Session.assertions scopes
  rw [hinner, h.base]
  simp

/-- A change to the innermost scope stays in it. -/
theorem modifyTop (h : Opens s ts s') {f : Scope → Scope} {us : List Term}
    (hf : ∀ declared, ∃ declared', f ⟨declared, ts⟩ = ⟨declared', us⟩) :
    Opens s us (modifyTop f s') := by
  obtain ⟨declared, hinner⟩ := h.inner
  obtain ⟨declared', hd⟩ := hf declared
  have htop : Session.modifyTop f s' = { s' with inner := f ⟨declared, ts⟩ :: s.inner } := by
    unfold Session.modifyTop
    rw [hinner]
  rw [htop, hd]
  exact ⟨h.name, h.timeout, ⟨declared', rfl⟩, h.base, h.definitions⟩

/-- Neither the last model nor the statistics belong to a scope. -/
theorem counts (h : Opens s ts s') (model : Option Model) (checks satisfiable : Nat) :
    Opens s ts { s' with model := model, checks := checks, satisfiable := satisfiable } :=
  ⟨h.name, h.timeout, h.inner, h.base, h.definitions⟩

end Opens

/-- In a scope over `s` in which `ts` have been asserted, the computation answers `f ts`. It keeps
to the scope and writes no records. -/
def Answers (s : Session) (act : Act Session α) (f : List Term → Except Fault α) : Prop :=
  ∀ (ts : List Term) (s₁ : Session) (log : Log), Opens s ts s₁ →
    ∃ ts' s₂, act.runFrom (s₁, log) = (f ts, s₂, log) ∧ Opens s ts' s₂

/-- **A scope is closed in any case.** If one scope more is open when the computation ends, normally
or not, it is the one that is closed, and the answer of the computation stays. -/
theorem runFrom_scope_of_inner {act : Act Session α} {s s₁ : Session} {r : Except Fault α}
    {log log₁ : Log} {top : Scope} (hrun : act.runFrom (push.runFrom (s, log)).2 = (r, s₁, log₁))
    (hinner : s₁.inner = top :: s.inner) :
    (scope act).runFrom (s, log) = (r, { s₁ with inner := s.inner, model := none }, log₁) := by
  have hpush : push.runFrom (s, log) = (.ok (), (push.runFrom (s, log)).2) := rfl
  have hpop : pop.runFrom (s₁, log₁) =
      (.ok (), { s₁ with inner := s.inner, model := none }, log₁) := by
    unfold pop
    rw [Act.runFrom_bind_of_ok (Act.runFrom_get _)]
    dsimp only
    rw [hinner]
    rfl
  unfold scope
  rw [Act.runFrom_bind_of_ok hpush, Act.runFrom_finally', hrun, hpop]

/-- **A scope leaves nothing behind.** If the computation keeps to its scope, the session is as
before once the scope has been closed. -/
theorem runFrom_scope {act : Act Session α} {s : Session} {f : List Term → Except Fault α}
    (h : Answers s act f) (log : Log) :
    ∃ s', (scope act).runFrom (s, log) = (f [], s', log) ∧ Alike s s' := by
  obtain ⟨ts, s₁, hrun, hopens⟩ :=
    h [] (push.runFrom (s, log)).2.1 log ⟨rfl, rfl, ⟨[], rfl⟩, rfl, rfl⟩
  obtain ⟨declared, hinner⟩ := hopens.inner
  exact ⟨_, runFrom_scope_of_inner hrun hinner, hopens.name, hopens.timeout, rfl, hopens.base,
    hopens.definitions⟩

/-! ### Asserting -/

/-- In a scope over `s` the computation asserts the formulas of `r`, or it fails as `r` does. It
writes no records. -/
def Asserts (s : Session) (act : Act Session Unit) (r : Except Fault (List Term)) : Prop :=
  ∀ (ts : List Term) (s₁ : Session) (log : Log), Opens s ts s₁ →
    ∃ ts' s₂, act.runFrom (s₁, log) = (r.map fun _ => (), s₂, log) ∧ Opens s ts' s₂ ∧
      ∀ us, r = .ok us → ts' = ts ++ us

/-- Two lists of formulas one after the other, if both can be had. -/
def both (r r' : Except Fault (List Term)) : Except Fault (List Term) := do
  let us ← r
  let vs ← r'
  pure (us ++ vs)

section Asserts

variable {s : Session}

/-- One asserting computation after the other. -/
theorem Asserts.bind {act next : Act Session Unit} {r r' : Except Fault (List Term)}
    (h : Asserts s act r) (h' : Asserts s next r') :
    Asserts s (act >>= fun _ => next) (both r r') := by
  intro ts s₁ log hs₁
  obtain ⟨ts₂, s₂, hrun, hs₂, hts₂⟩ := h ts s₁ log hs₁
  cases r with
  -- The first one fails, and so does the whole; what it has asserted stays in the scope.
  | error e => exact ⟨ts₂, s₂, by rw [Act.runFrom_bind, hrun]; rfl, hs₂, by rintro us ⟨⟩⟩
  | ok us =>
    obtain ⟨ts₃, s₃, hrun', hs₃, hts₃⟩ := h' ts₂ s₂ log hs₂
    refine ⟨ts₃, s₃, ?_, hs₃, ?_⟩
    · rw [Act.runFrom_bind, hrun]
      change next.runFrom (s₂, log) = _
      rw [hrun']
      cases r' <;> rfl
    · intro vs hvs
      -- Both succeed, so the formulas of both are asserted, the first ones first.
      obtain ⟨vs', rfl, hvs⟩ := bind_eq_ok.1 (show r' >>= (fun vs => pure (us ++ vs)) = _ from hvs)
      cases hvs
      rw [hts₃ vs' rfl, hts₂ us rfl, List.append_assoc]

/-- What is answered after some formulas have been asserted. -/
theorem Asserts.answers {act : Act Session Unit} {next : Act Session α}
    {r : Except Fault (List Term)} {f : List Term → Except Fault α} (h : Asserts s act r)
    (h' : Answers s next f) :
    Answers s (act >>= fun _ => next) fun ts => r.bind fun us => f (ts ++ us) := by
  intro ts s₁ log hs₁
  obtain ⟨ts₂, s₂, hrun, hs₂, hts₂⟩ := h ts s₁ log hs₁
  rw [Act.runFrom_bind, hrun]
  cases r with
  | error e => exact ⟨ts₂, s₂, rfl, hs₂⟩
  | ok us =>
    obtain rfl := hts₂ us rfl
    exact h' _ s₂ log hs₂

/-- A loop of asserting computations. -/
theorem Asserts.forM {f : β → Act Session Unit} {g : β → Except Fault (List Term)} {l : List β}
    (h : ∀ b ∈ l, Asserts s (f b) (g b)) :
    Asserts s (l.forM f) ((l.mapM g).map List.flatten) := by
  induction l with
  | nil => exact fun _ _ _ hs₁ => ⟨_, _, rfl, hs₁, by rintro us ⟨⟩; exact (List.append_nil _).symm⟩
  | cons b l ih =>
    rw [List.forall_mem_cons] at h
    have hboth := Asserts.bind h.1 (ih h.2)
    -- The formulas of the first item come before those of the others.
    have hmap : ((b :: l).mapM g).map List.flatten = both (g b) ((l.mapM g).map List.flatten) := by
      rw [List.mapM_cons, both]
      cases g b with
      | error e => rfl
      | ok us =>
        change ((l.mapM g >>= _ : Except Fault _)).map _ = _ >>= _
        cases l.mapM g <;> rfl
    rwa [hmap, List.forM_eq_forM, List.forM_cons]

/-- A formula as the list that is asserted. -/
def formula (t : Term) : Except Fault (List Term) :=
  if t.isBool then .ok [t] else .error .illSorted

/-- An application, in terms of the definitions, as the list that is asserted. -/
def application (callable : Callable) (s : Session) (pred : Int) (args : List Term)
    (original : Bool) : Except Fault (List Term) :=
  match s.definitions with
  | none => .error (.definitionsMissing s.name)
  | some inst => (resolveApp callable s.name inst pred args original).bind formula

theorem asserts_nothing : Asserts s (pure ()) (.ok []) := fun _ _ _ hs₁ =>
  ⟨_, _, rfl, hs₁, by rintro us ⟨⟩; exact (List.append_nil _).symm⟩

theorem asserts_throw (e : Fault) : Asserts s (throw e) (.error e) := fun _ _ _ hs₁ =>
  ⟨_, _, rfl, hs₁, by rintro us ⟨⟩⟩

/-- What depends on a result that needs no state. -/
theorem Asserts.ofExcept {x : Except Fault α} {next : α → Act Session Unit}
    {r : α → Except Fault (List Term)} (h : ∀ a, x = .ok a → Asserts s (next a) (r a)) :
    Asserts s (Act.ofExcept x >>= next) (x.bind r) := by
  cases x with
  | error e => exact asserts_throw e
  | ok a => exact h a rfl

/-- Declaring variables asserts nothing. -/
theorem asserts_declare (xs : List Constant) :
    Asserts s (declare (xs.map Term.const)) (.ok []) := by
  induction xs with
  | nil => exact asserts_nothing
  | cons x xs ih =>
    -- A constant is always accepted.
    have hx : Asserts s (modify (Session.modifyTop fun scope =>
        { scope with declared := scope.declared ++ [.const x] })) (.ok []) := fun _ _ log hs₁ =>
      ⟨_, _, rfl, hs₁.modifyTop fun _ => ⟨_, rfl⟩, by rintro us ⟨⟩; exact (List.append_nil _).symm⟩
    exact Asserts.bind hx ih

theorem asserts_assertTerm (t : Term) : Asserts s (assertTerm t) (formula t) := by
  unfold assertTerm formula
  split
  · intro ts s₁ log hs₁
    refine ⟨ts ++ [t], _, rfl, ?_, by rintro us ⟨⟩; rfl⟩
    have htop : Opens s (ts ++ [t]) (Session.modifyTop (fun scope => { scope with
        assertions := scope.assertions ++ [t] }) s₁) :=
      hs₁.modifyTop fun declared => ⟨declared, rfl⟩
    exact htop.counts none _ _
  · exact asserts_throw _

theorem asserts_assertApp (callable : Callable) (pred : Int) (args : List Term)
    (original : Bool) : Asserts s (assertApp pred args original callable)
      (s.application callable pred args original) := by
  intro ts s₁ log hs₁
  unfold assertApp application
  rw [Act.runFrom_bind_of_ok (Act.runFrom_get _)]
  dsimp only
  rw [hs₁.definitions, hs₁.name]
  cases s.definitions with
  | none => exact asserts_throw _ ts s₁ log hs₁
  | some inst => exact Asserts.ofExcept (fun t _ => asserts_assertTerm t) ts s₁ log hs₁

end Asserts

/-! ### Queries -/

/-- A query only changes the last model and the statistics. -/
theorem runFrom_checkSat (engine : Engine) (w : World Session) :
    ∃ model satisfiable, (checkSat engine).runFrom w =
      ((match engine.check w.1.assertions with
        | .unknown => .error (.undecided w.1.name .engineUnknown)
        | .unsat => .ok false
        | .sat _ => .ok true),
        { w.1 with model := model, checks := w.1.checks + 1, satisfiable := satisfiable }, w.2) ∧
      ∀ m, engine.check w.1.assertions = .sat m → model = some m := by
  unfold checkSat
  rw [Act.runFrom_bind_of_ok (Act.runFrom_modify _ _), Act.runFrom_bind_of_ok (Act.runFrom_get _)]
  dsimp only
  have hassertions : Session.assertions { w.1 with checks := w.1.checks + 1, model := none } =
      w.1.assertions := rfl
  rw [hassertions]
  cases engine.check w.1.assertions with
  | unknown => exact ⟨none, w.1.satisfiable, rfl, by rintro m ⟨⟩⟩
  | unsat => exact ⟨none, w.1.satisfiable, rfl, by rintro m ⟨⟩⟩
  | sat m => exact ⟨some m, w.1.satisfiable + 1, rfl, by rintro m ⟨⟩; rfl⟩

end Session
end Horn
