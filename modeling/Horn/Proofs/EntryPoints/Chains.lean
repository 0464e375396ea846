import Horn.EntryPoints.Registry
import Horn.Proofs.Act
import Horn.Proofs.Sample.Set

/-!
# Chains of dependencies

A registry is told, in any order, that samples are real and that samples depend on other ones
(`Registry.Request`). `Registry.after` is the registry after a history of requests; a request that
is refused leaves it as it was.

A dependency on a sample takes over what stands behind that sample at the time, and nothing that
becomes known later. So what is stored for a sample is told by the *chains* of the history
(`Registry.IsChain`): dependencies that go back in time from one to the next, through samples that
were not real then, to one that was.

* `exists_noted` is the step lemma: all that a request can do to a registry.
* `stands_take` is the run lemma: at every time of a history the registry stands as the chains up to
  that time say.
* `stored_iff_chained` is the result on whole histories, with what follows from it for the entry
  points of a sample.
-/

namespace Horn
namespace Registry

/-! ### Histories -/

/-- What a registry can be told. -/
inductive Request where
  | real (s : Sample)
  | dependency (s dep : Sample)
  deriving DecidableEq

/-- Enters what the registry is told. -/
def respond : Request → Act Registry Unit
  | .real s => do set (← Act.ofExcept ((← get).register s))
  | .dependency s dep => dependency s dep

/-- The registry after some requests, whether or not they fail. -/
def after (history : List Request) : Registry :=
  history.foldl (fun r q => ((respond q).exec r).2.1) empty

/-- The answer to a request after some others. -/
def reply (before : List Request) (q : Request) : Except Fault Unit :=
  ((respond q).exec (after before)).1

/-- The samples that are stored for a sample. -/
def stored (r : Registry) (s : Sample) : SampleSet := (SampleMap.get? r.derived s).getD []

/-- The request at a time of the history, if it succeeds. -/
def SucceedsAt (history : List Request) (t : Nat) (q : Request) : Prop :=
  history[t]? = some q ∧ reply (history.take t) q = .ok ()

/-- Before a time of the history, the sample has been registered as a real one. -/
def RealAt (history : List Request) (t : Nat) (s : Sample) : Prop :=
  ∃ i s', i < t ∧ SucceedsAt history i (.real s') ∧ s'.same s = true

/-- At a time of the history, it is registered that one sample depends on another one. -/
def DependsAt (history : List Request) (t : Nat) (s d : Sample) : Prop :=
  ∃ s' d', SucceedsAt history t (.dependency s' d') ∧ s'.same s = true ∧ d'.same d = true

/-- A chain of `m` dependencies before the time `now`: the sample `x i` depends on `x (i + 1)` since
the time `t i`. -/
structure IsChain (history : List Request) (now m : Nat) (x : Nat → Sample) (t : Nat → Nat) :
    Prop where
  pos : 0 < m
  past : ∀ i < m, t i < now
  decreasing : ∀ i j, i < j → j < m → t j < t i
  depends : ∀ i < m, DependsAt history (t i) (x i) (x (i + 1))
  /-- The last sample is real when the last dependency is registered. -/
  ends : RealAt history (t (m - 1)) (x m)
  /-- The others are not real when the dependency on them is registered. -/
  inner : ∀ i, i + 1 < m → ¬RealAt history (t i) (x (i + 1))

/-- A chain leads from one sample to another one. -/
def Chained (history : List Request) (now : Nat) (s r : Sample) : Prop :=
  ∃ m x t, IsChain history now m x t ∧ (x 0).same s = true ∧ (x m).same r = true

variable {history : List Request} {n : Nat} {s s' d r : Sample}

/-! ### Equal keys -/

theorem RealAt.congr (h : s.same s' = true) (hs : RealAt history n s) : RealAt history n s' := by
  obtain ⟨i, u, hi, hu, hus⟩ := hs
  exact ⟨i, u, hi, hu, Sample.same_trans hus h⟩

theorem DependsAt.congr (h : s.same s' = true) (hs : DependsAt history n s d) :
    DependsAt history n s' d := by
  obtain ⟨u, v, huv, hus, hvd⟩ := hs
  exact ⟨u, v, huv, Sample.same_trans hus h, hvd⟩

theorem Chained.congr (h : s.same s' = true) (hs : Chained history n s r) :
    Chained history n s' r := by
  obtain ⟨m, x, t, hchain, hx, hr⟩ := hs
  exact ⟨m, x, t, hchain, Sample.same_trans hx h, hr⟩

/-! ### Chains link by link -/

/-- A dependency on a real sample is a chain. -/
theorem chained_of_real {t : Nat} (ht : t < n) (hd : DependsAt history t s d)
    (hreal : RealAt history t d) (hr : d.same r = true) : Chained history n s r := by
  refine ⟨1, fun i => if i = 0 then s else d, fun _ => t, ?_, Sample.same_self s, hr⟩
  refine ⟨Nat.one_pos, fun _ _ => ht, ?_, ?_, hreal, ?_⟩
  · intro i j hij hj
    omega
  · intro i hi
    obtain rfl : i = 0 := by omega
    exact hd
  · intro i hi
    omega

/-- A dependency before a chain makes a longer one. -/
theorem chained_of_chained {t : Nat} (ht : t < n) (hd : DependsAt history t s d)
    (hnot : ¬RealAt history t d) (hchain : Chained history t d r) : Chained history n s r := by
  obtain ⟨m, x, u, h, hx, hr⟩ := hchain
  -- The samples and the times of the chain move on by one place.
  let x' : Nat → Sample := fun i => Nat.casesOn i s x
  let u' : Nat → Nat := fun i => Nat.casesOn i t u
  refine ⟨m + 1, x', u', ⟨Nat.succ_pos m, ?_, ?_, ?_, ?_, ?_⟩, Sample.same_self s, hr⟩
  · intro i hi
    cases i with
    | zero => exact ht
    | succ i => exact (h.past i (by omega)).trans ht
  · intro i j hij hj
    cases j with
    | zero => omega
    | succ j =>
      cases i with
      | zero => exact h.past j (by omega)
      | succ i => exact h.decreasing i j (by omega) (by omega)
  · intro i hi
    cases i with
    | zero =>
      obtain ⟨v, w, hvw, hvs, hwd⟩ := hd
      exact ⟨v, w, hvw, hvs, Sample.same_trans hwd (Sample.same_symm hx)⟩
    | succ i => exact h.depends i (by omega)
  · -- The last dependency is the one of the chain.
    have hlast : u' (m + 1 - 1) = u (m - 1) := by
      obtain ⟨k, rfl⟩ : ∃ k, m = k + 1 := ⟨m - 1, by have := h.pos; omega⟩
      rfl
    rw [hlast]
    exact h.ends
  · intro i hi
    cases i with
    | zero =>
      intro hreal
      have hback : (x 0).same d = true := hx
      exact hnot (RealAt.congr hback hreal)
    | succ i => exact h.inner i (by omega)

/-- **The first link of a chain.** It ends at a real sample, or a chain that is older goes on from
there. -/
theorem chained_iff : Chained history n s r ↔ ∃ t d, t < n ∧ DependsAt history t s d ∧
    ((RealAt history t d ∧ d.same r = true) ∨ (¬RealAt history t d ∧ Chained history t d r)) := by
  constructor
  · rintro ⟨m, x, t, h, hs, hr⟩
    refine ⟨t 0, x 1, h.past 0 h.pos, (h.depends 0 h.pos).congr hs, ?_⟩
    -- A chain with one link ends at a real sample, a longer one goes on with one link less.
    by_cases hm : m = 1
    · subst hm
      exact .inl ⟨h.ends, hr⟩
    · have hlong : 1 < m := by have := h.pos; omega
      refine .inr ⟨h.inner 0 hlong, m - 1, fun i => x (i + 1), fun i => t (i + 1), ?_,
        Sample.same_self _, ?_⟩
      · have hends : RealAt history (t (m - 1 - 1 + 1)) (x (m - 1 + 1)) := by
          -- Moving the chain down by one leaves it at the same end.
          rw [Nat.sub_add_cancel (by omega), Nat.sub_add_cancel (by omega)]
          exact h.ends
        exact ⟨by omega, fun i hi => h.decreasing 0 (i + 1) (by omega) (by omega),
          fun i j hij hj => h.decreasing (i + 1) (j + 1) (by omega) (by omega),
          fun i hi => h.depends (i + 1) (by omega), hends,
          fun i hi => h.inner (i + 1) (by omega)⟩
      · have hend : m - 1 + 1 = m := by omega
        change (x (m - 1 + 1)).same r = true
        rw [hend, hr]
  -- A real sample may not be passed, so a chain goes on only from one that is not real.
  · rintro ⟨t, d, ht, hd, ⟨hreal, hr⟩ | ⟨hnot, hchain⟩⟩
    · exact chained_of_real ht hd hreal hr
    · exact chained_of_chained ht hd hnot hchain

/-- What happens before a time and one more happens before that time, or at it. -/
theorem exists_before_succ {P : Nat → Sample → Prop} :
    (∃ t d, t < n + 1 ∧ P t d) ↔ (∃ t d, t < n ∧ P t d) ∨ ∃ d, P n d := by
  constructor
  · rintro ⟨t, d, ht, h⟩
    rcases Nat.lt_succ_iff_lt_or_eq.1 ht with ht | rfl
    · exact .inl ⟨t, d, ht, h⟩
    · exact .inr ⟨d, h⟩
  · rintro (⟨t, d, ht, h⟩ | ⟨d, h⟩)
    · exact ⟨t, d, Nat.lt_succ_of_lt ht, h⟩
    · exact ⟨n, d, Nat.lt_succ_self n, h⟩

/-- At one time more, a sample may have become a real one. -/
theorem realAt_succ : RealAt history (n + 1) s ↔
    RealAt history n s ∨ ∃ s', SucceedsAt history n (.real s') ∧ s'.same s = true :=
  exists_before_succ

/-- At one time more, there may be a chain whose first link is the newest dependency. -/
theorem chained_succ : Chained history (n + 1) s r ↔ Chained history n s r ∨
    ∃ d, DependsAt history n s d ∧
      ((RealAt history n d ∧ d.same r = true) ∨ (¬RealAt history n d ∧ Chained history n d r)) := by
  rw [chained_iff (n := n + 1), chained_iff (n := n), exists_before_succ]

/-! ### One request -/

/-- All that a request can change. What is stored for a sample afterwards is what was stored before,
and what stands behind the sample on which it depends. -/
inductive Noted (r : Registry) : Request → Registry → Prop
  | real (s : Sample) : Noted r (.real s) { r with real := SampleSet.insert s r.real }
  | dependency {s dep : Sample} {deps new : SampleSet} : r.behind? dep = some deps →
      (∀ t, SampleSet.has new t = (SampleSet.has (r.stored s) t || SampleSet.has deps t)) →
      Noted r (.dependency s dep) { r with derived := SampleMap.insert s new r.derived }

theorem comparable_cases (s : Sample) :
    comparable s = .ok () ∨ ∃ v, s.unsupported? = some v ∧
      comparable s = .error (.unsupportedValue v) := by
  unfold comparable
  cases s.unsupported? with
  | none => exact .inl rfl
  | some v => exact .inr ⟨v, rfl, rfl⟩

/-- **The step lemma.** A request fails and changes nothing, or it is noted. -/
theorem exists_noted (q : Request) (r : Registry) :
    (∃ e, (respond q).exec r = (.error e, r, [])) ∨
      ∃ r' log, (respond q).exec r = (.ok (), r', log) ∧ Noted r q r' := by
  rw [Act.exec_eq]
  cases q with
  | real s =>
    unfold respond
    rw [Act.runFrom_bind_of_ok (Act.runFrom_get _)]
    -- A sample that cannot be compared is refused, before anything is stored.
    rcases comparable_cases s with hs | ⟨v, -, hs⟩
    · have hreg : r.register s = .ok { r with real := SampleSet.insert s r.real } := by
        rw [register, hs]
        rfl
      dsimp only
      rw [hreg]
      exact .inr ⟨_, _, rfl, .real s⟩
    · have hreg : r.register s = .error (.unsupportedValue v) := by
        rw [register, hs]
        rfl
      dsimp only
      rw [hreg]
      exact .inl ⟨_, rfl⟩
  | dependency s dep =>
    unfold respond dependency
    rw [Act.runFrom_bind_of_ok (Act.runFrom_get _)]
    rcases comparable_cases dep with hdep | ⟨v, -, hdep⟩
    · dsimp only
      -- A dependency is noted if both samples can be compared and something is known of the second
      -- one.
      rw [hdep, Act.runFrom_bind_of_ok (Act.runFrom_ofExcept _ _)]
      cases hbehind : r.behind? dep with
      | none => exact .inl ⟨_, rfl⟩
      | some deps =>
        dsimp only
        rcases comparable_cases s with hs | ⟨v, -, hs⟩
        · rw [hs, Act.runFrom_bind_of_ok (Act.runFrom_ofExcept _ _)]
          -- The samples behind it are stored, or added to those that are stored already.
          cases hold : SampleMap.get? r.derived s with
          | none =>
            refine .inr ⟨_, _, rfl, .dependency hbehind fun t => ?_⟩
            rw [stored, hold]
            rfl
          | some old =>
            dsimp only
            rw [Act.runFrom_bind_of_ok (Act.runFrom_debug _ _ _)]
            refine .inr ⟨_, _, rfl, .dependency hbehind fun t => ?_⟩
            rw [SampleSet.has_union, stored, hold]
            rfl
        · rw [hs]
          exact .inl ⟨_, rfl⟩
    · dsimp only
      rw [hdep]
      exact .inl ⟨_, rfl⟩

/-! ### The run -/

/-- At a time of the history the registry stands as the chains up to that time say. -/
structure Stands (history : List Request) (n : Nat) (r : Registry) : Prop where
  real : ∀ s, SampleSet.has r.real s = true ↔ RealAt history n s
  stored : ∀ s t, SampleSet.has (r.stored s) t = true ↔ Chained history n s t
  known : ∀ s, (SampleMap.get? r.derived s).isSome ↔ ∃ t d, t < n ∧ DependsAt history t s d
  nonempty : ∀ s deps, SampleMap.get? r.derived s = some deps → deps ≠ []

theorem stands_empty (history : List Request) : Stands history 0 empty := by
  refine ⟨fun s => ?_, fun s t => ?_, fun s => ?_, nofun⟩
  · refine iff_of_false nofun ?_
    rintro ⟨i, s', hi, -⟩
    omega
  · refine iff_of_false nofun ?_
    intro h
    obtain ⟨i, d, hi, -⟩ := chained_iff.1 h
    omega
  · refine iff_of_false nofun ?_
    rintro ⟨i, d, hi, -⟩
    omega

/-- A time without a new dependency leaves what is stored, and the chains. -/
theorem Stands.skip {reg reg' : Registry} (h : Stands history n reg)
    (hnone : ∀ s d, ¬DependsAt history n s d) (hderived : reg'.derived = reg.derived)
    (hreal : ∀ s, SampleSet.has reg'.real s = true ↔ RealAt history (n + 1) s) :
    Stands history (n + 1) reg' := by
  refine ⟨hreal, fun s t => ?_, fun s => ?_, fun s deps hs => ?_⟩
  · rw [chained_succ, ← h.stored, Registry.stored, Registry.stored, hderived]
    simp only [hnone, false_and, exists_false, or_false]
  · rw [exists_before_succ, hderived, h.known]
    simp only [hnone, exists_false, or_false]
  · rw [hderived] at hs
    exact h.nonempty s deps hs

/-- What stands behind a sample: itself if it is real, or else what chains lead to. -/
theorem Stands.has_behind {reg : Registry} (h : Stands history n reg) {deps : SampleSet}
    (hd : reg.behind? d = some deps) (t : Sample) : SampleSet.has deps t = true ↔
      (RealAt history n d ∧ d.same t = true) ∨ (¬RealAt history n d ∧ Chained history n d t) := by
  unfold behind? at hd
  by_cases hreal : SampleSet.has reg.real d = true
  · rw [if_pos hreal, Option.some.injEq] at hd
    have hat : RealAt history n d := (h.real d).1 hreal
    rw [← hd, SampleSet.has_cons]
    simp [SampleSet.has, hat]
  · rw [if_neg hreal] at hd
    have hnot : ¬RealAt history n d := fun hat => hreal ((h.real d).2 hat)
    have hstored : reg.stored d = deps := by rw [Registry.stored, hd, Option.getD_some]
    rw [← hstored, h.stored]
    simp [hnot]

/-- Something stands behind every sample that is known. -/
theorem Stands.behind_ne_nil {reg : Registry} (h : Stands history n reg) {deps : SampleSet}
    (hd : reg.behind? d = some deps) : deps ≠ [] := by
  unfold behind? at hd
  split at hd
  · cases hd
    exact List.cons_ne_nil _ _
  · exact h.nonempty d deps hd

/-- **One request more** leaves the registry as the chains say. -/
theorem Stands.next {reg reg' : Registry} {q : Request} (h : Stands history n reg)
    (hq : ∀ q', SucceedsAt history n q' ↔ q' = q) (hnoted : Noted reg q reg') :
    Stands history (n + 1) reg' := by
  cases hnoted with
  | real u =>
    -- No dependency is registered, so the chains are the ones before.
    have hnone : ∀ s d, ¬DependsAt history n s d := by
      rintro s d ⟨s', d', hsucc, -⟩
      cases (hq _).1 hsucc
    refine h.skip hnone rfl fun s => ?_
    have hnew : (∃ s', SucceedsAt history n (.real s') ∧ s'.same s = true) ↔ u.same s = true := by
      simp only [hq, Request.real.injEq, exists_eq_left]
    rw [realAt_succ, hnew, SampleSet.has_insert, Bool.or_eq_true, h.real, or_comm]
  | @dependency u dep deps new hbehind hnew =>
    have hdep : ∀ s d, DependsAt history n s d ↔ u.same s = true ∧ dep.same d = true := by
      intro s d
      constructor
      · rintro ⟨s', d', hsucc, hs, hd⟩
        obtain ⟨rfl, rfl⟩ := Request.dependency.inj ((hq _).1 hsucc)
        exact ⟨hs, hd⟩
      · rintro ⟨hs, hd⟩
        exact ⟨u, dep, (hq _).2 rfl, hs, hd⟩
    -- The dependency takes over what stands behind the sample on which it is one.
    have hlink : ∀ s t, (∃ d, DependsAt history n s d ∧ ((RealAt history n d ∧ d.same t = true) ∨
        (¬RealAt history n d ∧ Chained history n d t))) ↔
          u.same s = true ∧ SampleSet.has deps t = true := by
      intro s t
      rw [h.has_behind hbehind]
      constructor
      · rintro ⟨d, hd, hrest⟩
        obtain ⟨hs, hd⟩ := (hdep s d).1 hd
        have hd' : d.same dep = true := Sample.same_symm hd
        refine ⟨hs, hrest.imp ?_ ?_⟩
        · rintro ⟨hreal, ht⟩
          exact ⟨hreal.congr hd', Sample.same_trans hd ht⟩
        · rintro ⟨hnot, hchain⟩
          exact ⟨fun hreal => hnot (hreal.congr hd), hchain.congr hd'⟩
      · rintro ⟨hs, hrest⟩
        exact ⟨dep, (hdep s dep).2 ⟨hs, Sample.same_self dep⟩, hrest⟩
    refine ⟨fun s => ?_, fun s t => ?_, fun s => ?_, fun s ds hs => ?_⟩
    · have hnone : ¬∃ s', SucceedsAt history n (.real s') ∧ s'.same s = true := by
        rintro ⟨s', hsucc, -⟩
        cases (hq _).1 hsucc
      rw [realAt_succ, or_iff_left hnone]
      exact h.real s
    · rw [chained_succ, hlink, Registry.stored]
      dsimp only
      rw [SampleMap.get?_insert]
      by_cases hs : u.same s = true
      · -- What was stored for the sample is kept.
        have hu : Chained history n s t ↔ SampleSet.has (reg.stored u) t = true := by
          rw [h.stored]
          exact ⟨.congr (Sample.same_symm hs), .congr hs⟩
        rw [if_pos hs, Option.getD_some, hnew, Bool.or_eq_true, hu, and_iff_right hs]
      · rw [if_neg hs, ← h.stored, or_iff_left fun hboth => hs hboth.1]
        rfl
    · dsimp only
      rw [SampleMap.get?_insert]
      have hlast : (∃ d, DependsAt history n s d) ↔ u.same s = true := by
        constructor
        · rintro ⟨d, hd⟩
          exact ((hdep s d).1 hd).1
        · intro hs
          exact ⟨dep, (hdep s dep).2 ⟨hs, Sample.same_self dep⟩⟩
      rw [exists_before_succ, hlast, ← h.known]
      by_cases hs : u.same s = true <;> simp [hs]
    · dsimp only at hs
      rw [SampleMap.get?_insert] at hs
      by_cases hus : u.same s = true
      · rw [if_pos hus, Option.some.injEq] at hs
        subst hs
        -- Something stands behind the sample on which the dependency is one.
        obtain ⟨t, ht⟩ := List.exists_mem_of_ne_nil deps (h.behind_ne_nil hbehind)
        have hhas : SampleSet.has new t = true := by
          rw [hnew, Bool.or_eq_true]
          exact .inr (SampleSet.has_iff.2 ⟨t, ht, Sample.same_self t⟩)
        rintro rfl
        cases hhas
      · rw [if_neg hus] at hs
        exact h.nonempty s ds hs

/-- **The run lemma.** At every time of a history the registry stands as the chains say. -/
theorem stands_take (history : List Request) {n : Nat} (hn : n ≤ history.length) :
    Stands history n (after (history.take n)) := by
  induction n with
  | zero => exact stands_empty history
  | succ n ih =>
    have h := ih (Nat.le_of_succ_le hn)
    have hq : history[n]? = some history[n] := List.getElem?_eq_getElem hn
    have hafter : after (history.take (n + 1)) =
        ((respond history[n]).exec (after (history.take n))).2.1 := by
      rw [List.take_add_one, hq, Option.toList_some]
      exact List.foldl_append
    rw [hafter]
    rcases exists_noted history[n] (after (history.take n)) with ⟨e, hrun⟩ | ⟨r', log, hrun, hnoted⟩
    · -- A request that fails is no success at its time, so that there are no new chains.
      have hnone : ∀ q, ¬SucceedsAt history n q := by
        rintro q ⟨hmem, hok⟩
        rw [hq, Option.some.injEq] at hmem
        rw [reply, ← hmem, hrun] at hok
        cases hok
      have hnodep : ∀ s d, ¬DependsAt history n s d := by
        rintro s d ⟨s', d', hsucc, -⟩
        exact hnone _ hsucc
      rw [hrun]
      refine h.skip hnodep rfl fun s => ?_
      rw [realAt_succ, ← h.real]
      simp only [hnone, false_and, exists_false, or_false]
    · have hsucc : ∀ q, SucceedsAt history n q ↔ q = history[n] := by
        intro q
        constructor
        · rintro ⟨hmem, -⟩
          rw [hq, Option.some.injEq] at hmem
          exact hmem.symm
        · rintro rfl
          refine ⟨hq, ?_⟩
          rw [reply, hrun]
      rw [hrun]
      exact h.next hsucc hnoted

/-! ### Whole histories -/

/-- A request that is refused leaves the registry as it was. -/
theorem after_refused {q : Request} {e : Fault} (h : reply history q = .error e) :
    after (history ++ [q]) = after history := by
  have hafter : after (history ++ [q]) = ((respond q).exec (after history)).2.1 :=
    List.foldl_append
  unfold reply at h
  rcases exists_noted q (after history) with ⟨e', hrun⟩ | ⟨r', log, hrun, -⟩
  · rw [hafter, hrun]
  · rw [hrun] at h
    cases h

/-- What is real at a time stays so. -/
theorem RealAt.mono {t : Nat} (h : RealAt history t s) (htn : t ≤ n) : RealAt history n s := by
  obtain ⟨i, s', hi, hs'⟩ := h
  exact ⟨i, s', hi.trans_le htn, hs'⟩

/-- Chains lead to real samples. -/
theorem Chained.realAt (h : Chained history n s r) : RealAt history n r := by
  obtain ⟨m, x, t, hchain, -, hr⟩ := h
  have hlast : t (m - 1) < n := hchain.past (m - 1) (Nat.sub_one_lt_of_lt hchain.pos)
  exact (hchain.ends.congr hr).mono hlast.le

/-- The registry after a history stands as its chains say. -/
theorem stands_after (history : List Request) :
    Stands history history.length (after history) := by
  have h := stands_take history le_rfl
  rwa [List.take_length] at h

theorem comparable_of_supported (hs : s.unsupported? = none) : comparable s = .ok () := by
  rw [comparable, hs]

/-- The entry points are what stands behind the sample. -/
theorem entryPoints_of_behind {reg : Registry} (hs : s.unsupported? = none) {deps : SampleSet}
    (hd : reg.behind? s = some deps) : reg.entryPoints s = .ok deps := by
  rw [entryPoints, comparable_of_supported hs]
  dsimp only [bind, Except.bind]
  rw [hd]
  rfl

theorem entryPoints_of_behind_eq_none {reg : Registry} (hs : s.unsupported? = none)
    (hd : reg.behind? s = none) :
    reg.entryPoints s = .error (.unknownSample "recover entry points for" s) := by
  rw [entryPoints, comparable_of_supported hs]
  dsimp only [bind, Except.bind]
  rw [hd]
  rfl

/-- **What is stored for a sample** are the samples to which chains lead. A request that fails
changes nothing. No stored set is empty and all stored samples are real. The entry points are the
sample itself if it is real, the stored samples if it depends on others, and unknown otherwise. -/
theorem stored_iff_chained (history : List Request) :
    (∀ q e, reply history q = .error e → after (history ++ [q]) = after history) ∧
    (∀ s r, SampleSet.has ((after history).stored s) r = true ↔
      Chained history history.length s r) ∧
    (∀ s deps, SampleMap.get? (after history).derived s = some deps →
      deps ≠ [] ∧ ∀ r ∈ deps, RealAt history history.length r) ∧
    ∀ s, s.unsupported? = none →
      (RealAt history history.length s → (after history).entryPoints s = .ok [s]) ∧
      (¬RealAt history history.length s →
        (∃ t d, t < history.length ∧ DependsAt history t s d) →
          (after history).entryPoints s = .ok ((after history).stored s)) ∧
      (¬RealAt history history.length s →
        (¬∃ t d, t < history.length ∧ DependsAt history t s d) →
          (after history).entryPoints s =
            .error (.unknownSample "recover entry points for" s)) := by
  have h := stands_after history
  refine ⟨fun q e => after_refused, h.stored, fun s deps hs => ⟨h.nonempty s deps hs, ?_⟩,
    fun s hs => ?_⟩
  · intro r hr
    have hstored : (after history).stored s = deps := by rw [stored, hs, Option.getD_some]
    have hhas : SampleSet.has ((after history).stored s) r = true := by
      rw [hstored]
      exact SampleSet.has_iff.2 ⟨r, hr, Sample.same_self r⟩
    exact ((h.stored s r).1 hhas).realAt
  · refine ⟨fun hreal => ?_, fun hnot hdep => ?_, fun hnot hnone => ?_⟩
    · apply entryPoints_of_behind hs
      rw [behind?, if_pos ((h.real s).2 hreal)]
    · apply entryPoints_of_behind hs
      obtain ⟨deps, hdeps⟩ := Option.isSome_iff_exists.1 ((h.known s).2 hdep)
      rw [behind?, if_neg fun hreal => hnot ((h.real s).1 hreal), stored, hdeps, Option.getD_some]
    · apply entryPoints_of_behind_eq_none hs
      rw [behind?, if_neg fun hreal => hnot ((h.real s).1 hreal), ← Option.not_isSome_iff_eq_none,
        h.known]
      exact hnone

/-- A sample that becomes real later is not stored for those that depended on it before: a second
dependency adds it. -/
example :
    let a : Sample := ⟨0, [.int 0]⟩
    let b : Sample := ⟨0, [.int 1]⟩
    let c : Sample := ⟨0, [.int 2]⟩
    let history : List Request := [.real a, .dependency b a, .dependency c b, .real b]
    (after history).stored c = [a] ∧ (after (history ++ [.dependency c b])).stored c = [a, b] := by
  decide +kernel

end Registry
end Horn
