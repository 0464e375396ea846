import Horn.Proofs.Instance.Safe
import Mathlib.Logic.Relation
import Mathlib.Order.WellFounded

/-!
# The safe predicates are a least set

The safe and the positive predicates are found by a loop of scans (`Instance.Found.Finds`). A scan
visits the predicates one after the other, and a predicate that it adds counts at once for those
that it visits later; the loop ends after a scan that has added no safe predicate. Nothing bounds
the number of scans, and the order of the visits is arbitrary.

* `Found.Finds.sound` is the run lemma of the loop: what it has found is a list in which every
  definition only mentions what comes before (`Instance.Resolved`), and at the end nothing that is
  still missing qualifies. One visit preserves the former (`Found.Sound.visit`).
* `Found.exists_finds`: the loop ends, as every scan but the last one adds a predicate.
* `Instance.finds_least` is the result. All these loops find the least set that contains
  the defined predicates whose definition stays inside of it. A predicate is in that set if and only
  if the mentions that lead away from it end, and meet defined predicates only.
-/

namespace Horn
namespace Instance

variable {inst : Instance} {p : Nat} {refs l : List Nat}

/-! ### Mentions -/

/-- The definition of `p` mentions `q`. -/
def Refers (inst : Instance) (p q : Nat) : Prop := ∃ refs, inst.mentions? p = some refs ∧ q ∈ refs

/-- The set contains every defined predicate whose definition only mentions predicates of the set.
-/
def Saturated (inst : Instance) (S : Set Nat) : Prop :=
  ∀ p refs, inst.mentions? p = some refs → (∀ q ∈ refs, q ∈ S) → p ∈ S

/-- A resolved list is part of every saturated set. -/
theorem Resolved.subset (h : inst.Resolved l) {S : Set Nat} (hS : inst.Saturated S) :
    ∀ p ∈ l, p ∈ S := by
  induction h with
  | nil => exact List.forall_mem_nil _
  | @snoc l p d _ _ hd hrefs ih =>
    rw [List.forall_mem_append, List.forall_mem_singleton]
    refine ⟨ih, hS p (inst.predsIn d.body) ?_ fun q hq => ih q (hrefs q hq)⟩
    rw [mentions?, hd, Option.map_some]

/-- What a resolved predicate mentions is resolved. -/
theorem Resolved.refers (h : inst.Resolved l) (hp : p ∈ l) {q : Nat} (hq : inst.Refers p q) :
    q ∈ l := by
  obtain ⟨d, hd, hrefs⟩ := h.definition hp
  obtain ⟨refs, hm, hq⟩ := hq
  rw [mentions?, hd, Option.map_some, Option.some.injEq] at hm
  exact hrefs q (hm ▸ hq)

/-- No chain of mentions goes on for ever if and only if the mentions can be followed to their ends.
-/
theorem acc_refers_iff : Acc (fun q p => inst.Refers p q) p ↔
    ¬∃ chain : ℕ → ℕ, chain 0 = p ∧ ∀ i, inst.Refers (chain i) (chain (i + 1)) := by
  rw [iff_not_comm]
  exact (not_acc_iff_exists_descending_chain (r := fun q p => inst.Refers p q)).symm

/-- **No mentions lead away for ever** from a resolved predicate. -/
theorem Resolved.acc (h : inst.Resolved l) : ∀ p ∈ l, Acc (fun q p => inst.Refers p q) p := by
  induction h with
  | nil => exact List.forall_mem_nil _
  | @snoc l p d hl hp hd hrefs ih =>
    rw [List.forall_mem_append, List.forall_mem_singleton]
    refine ⟨ih, Acc.intro p fun q hq => ?_⟩
    obtain ⟨refs, hm, hq⟩ := hq
    rw [mentions?, hd, Option.map_some, Option.some.injEq] at hm
    exact ih q (hrefs q (hm ▸ hq))

/-- All predicates that mentions lead to from a resolved one are defined. -/
theorem Resolved.isSome_of_reaches (h : inst.Resolved l) (hp : p ∈ l) {q : Nat}
    (hq : Relation.ReflTransGen inst.Refers p q) : (inst.definition? q).isSome := by
  have hmem : q ∈ l := by
    induction hq with
    | refl => exact hp
    | tail _ hstep ih => exact h.refers ih hstep
  obtain ⟨d, hd, -⟩ := h.definition hmem
  rw [hd]
  rfl

/-- If mentions end, and meet defined predicates only, they stay inside of a saturated set. -/
theorem Saturated.mem_of_acc {S : Set Nat} (hS : inst.Saturated S)
    (h : Acc (fun q p => inst.Refers p q) p)
    (hdefined : ∀ q, Relation.ReflTransGen inst.Refers p q → (inst.definition? q).isSome) :
    p ∈ S := by
  induction h with
  | intro p _ ih =>
    have hp : (inst.mentions? p).isSome := by
      rw [mentions?_isSome]
      exact hdefined p .refl
    obtain ⟨refs, hrefs⟩ := Option.isSome_iff_exists.1 hp
    apply hS p refs hrefs
    intro q hq
    have hstep : inst.Refers p q := ⟨refs, hrefs, hq⟩
    exact ih q hstep fun r hr => hdefined r (.head hstep hr)

/-! ### The loop -/

/-- What a loop has found, in the order in which it was found. -/
structure Found where
  safe : List Nat
  positive : List Nat

namespace Found

variable {f g : Found} {ps : List Nat}

/-- Nothing has been found. -/
def none : Found := ⟨[], []⟩

/-- A visit of a predicate. It is passed over if it is safe already or not defined; else it becomes
positive if its definition mentions nothing, and safe if all that its definition mentions is. -/
def visit (inst : Instance) (f : Found) (p : Nat) : Found :=
  if p ∈ f.safe then f
  else match inst.mentions? p with
    | .none => f
    | some refs =>
      ⟨if refs ⊆ f.safe then f.safe ++ [p] else f.safe,
        if refs = [] then f.positive.insert p else f.positive⟩

/-- One scan visits the predicates in some order. -/
def scan (inst : Instance) (ps : List Nat) (f : Found) : Found := ps.foldl (visit inst) f

/-- The loop of scans. It ends after a scan that has added no safe predicate. -/
inductive Finds (inst : Instance) (ps : List Nat) : Found → Found → Prop
  | stop {f : Found} : (f.scan inst ps).safe = f.safe → Finds inst ps f (f.scan inst ps)
  | again {f g : Found} : (f.scan inst ps).safe ≠ f.safe → Finds inst ps (f.scan inst ps) g →
      Finds inst ps f g

/-! ### One visit -/

/-- The predicate is defined, and all that its definition mentions is safe. -/
def Qualifies (inst : Instance) (f : Found) (p : Nat) : Prop :=
  ∃ refs, inst.mentions? p = some refs ∧ refs ⊆ f.safe

/-- The safe predicates have been found in an order in which every definition only mentions what
comes before, and the positive ones are those whose definition mentions nothing. -/
structure Sound (inst : Instance) (f : Found) : Prop where
  resolved : inst.Resolved f.safe
  positive : ∀ p, p ∈ f.positive ↔ p ∈ f.safe ∧ inst.mentions? p = some []

theorem sound_none (inst : Instance) : Sound inst none :=
  ⟨.nil, fun p => by simp [none]⟩

/-- The three ways in which a visit goes. -/
theorem visit_cases (inst : Instance) (f : Found) (p : Nat) :
    (f.visit inst p = f ∧ (Qualifies inst f p → p ∈ f.safe)) ∨
    (p ∉ f.safe ∧ inst.mentions? p = some [] ∧
      f.visit inst p = ⟨f.safe ++ [p], f.positive.insert p⟩) ∨
    ∃ refs, p ∉ f.safe ∧ inst.mentions? p = some refs ∧ refs ≠ [] ∧ refs ⊆ f.safe ∧
      f.visit inst p = ⟨f.safe ++ [p], f.positive⟩ := by
  unfold visit Qualifies
  by_cases hp : p ∈ f.safe
  · exact .inl ⟨if_pos hp, fun _ => hp⟩
  · rw [if_neg hp]
    cases inst.mentions? p with
    | none => exact .inl ⟨rfl, by rintro ⟨_, ⟨⟩, -⟩⟩
    | some refs =>
      dsimp only
      -- Without any references a predicate is positive as well.
      by_cases hempty : refs = []
      · subst hempty
        exact .inr (.inl ⟨hp, rfl, by rw [if_pos (List.nil_subset _), if_pos rfl]⟩)
      · rw [if_neg hempty]
        by_cases hsub : refs ⊆ f.safe
        · exact .inr (.inr ⟨refs, hp, rfl, hempty, hsub, by rw [if_pos hsub]⟩)
        · exact .inl ⟨by rw [if_neg hsub], by rintro ⟨_, ⟨⟩, h⟩; exact absurd h hsub⟩

/-- What is safe stays safe. -/
theorem safe_prefix_visit (inst : Instance) (f : Found) (p : Nat) :
    f.safe <+: (f.visit inst p).safe := by
  rcases visit_cases inst f p with ⟨h, -⟩ | ⟨-, -, h⟩ | ⟨refs, -, -, -, -, h⟩ <;> rw [h]
  · exact List.prefix_append _ _
  · exact List.prefix_append _ _

/-- A predicate that qualifies is safe once it has been visited. -/
theorem mem_safe_visit (h : Qualifies inst f p) : p ∈ (f.visit inst p).safe := by
  rcases visit_cases inst f p with ⟨heq, hp⟩ | ⟨-, -, heq⟩ | ⟨_, -, -, -, -, heq⟩ <;> rw [heq]
  · exact hp h
  · exact List.mem_append_right _ (List.mem_singleton_self p)
  · exact List.mem_append_right _ (List.mem_singleton_self p)

/-- **One visit** keeps what has been found sound. -/
theorem Sound.visit (h : Sound inst f) (p : Nat) : Sound inst (f.visit inst p) := by
  -- A predicate that is added is defined, and its definition stays inside of the list.
  have hadd : ∀ refs, p ∉ f.safe → inst.mentions? p = some refs → refs ⊆ f.safe →
      inst.Resolved (f.safe ++ [p]) := by
    intro refs hp hrefs hsub
    obtain ⟨d, hd, rfl⟩ := Option.map_eq_some_iff.1 hrefs
    exact h.resolved.snoc hp hd fun q hq => hsub hq
  rcases visit_cases inst f p with ⟨heq, -⟩ | ⟨hp, hrefs, heq⟩ |
    ⟨refs, hp, hrefs, hne, hsub, heq⟩ <;> rw [heq]
  · exact h
  · refine ⟨hadd [] hp hrefs (List.nil_subset _), fun q => ?_⟩
    rw [List.mem_insert_iff, h.positive, List.mem_append, List.mem_singleton]
    constructor
    · rintro (rfl | ⟨hq, hqm⟩)
      · exact ⟨.inr rfl, hrefs⟩
      · exact ⟨.inl hq, hqm⟩
    · rintro ⟨hq | rfl, hqm⟩
      · exact .inr ⟨hq, hqm⟩
      · exact .inl rfl
  · refine ⟨hadd refs hp hrefs hsub, fun q => ?_⟩
    rw [h.positive, List.mem_append, List.mem_singleton]
    refine and_congr_left fun hqm => ⟨.inl, fun hq => hq.resolve_right ?_⟩
    rintro rfl
    rw [hrefs, Option.some.injEq] at hqm
    exact hne hqm

/-! ### One scan -/

theorem scan_cons (inst : Instance) (p : Nat) (ps : List Nat) (f : Found) :
    f.scan inst (p :: ps) = (f.visit inst p).scan inst ps := rfl

theorem Sound.scan (h : Sound inst f) (ps : List Nat) : Sound inst (f.scan inst ps) := by
  induction ps generalizing f with
  | nil => exact h
  | cons p ps ih => exact ih (h.visit p)

theorem safe_prefix_scan (inst : Instance) (ps : List Nat) (f : Found) :
    f.safe <+: (f.scan inst ps).safe := by
  induction ps generalizing f with
  | nil => exact List.prefix_rfl
  | cons p ps ih => exact (safe_prefix_visit inst f p).trans (ih _)

/-- A predicate that qualifies before a scan is safe afterwards. -/
theorem mem_safe_scan (hp : p ∈ ps) (h : Qualifies inst f p) :
    p ∈ (f.scan inst ps).safe := by
  induction ps generalizing f with
  | nil => cases hp
  | cons q ps ih =>
    rcases List.mem_cons.1 hp with rfl | hp
    · exact (safe_prefix_scan inst ps _).subset (mem_safe_visit h)
    · -- It still qualifies when it is its turn.
      obtain ⟨refs, hrefs, hsub⟩ := h
      exact ih hp ⟨refs, hrefs, List.Subset.trans hsub (safe_prefix_visit inst f q).subset⟩

/-- A scan that does not end the loop adds a safe predicate. -/
theorem length_lt_scan (h : (f.scan inst ps).safe ≠ f.safe) :
    f.safe.length < (f.scan inst ps).safe.length := by
  have hgrown := safe_prefix_scan inst ps f
  apply lt_of_le_of_ne hgrown.length_le
  intro hlength
  exact h (hgrown.eq_of_length hlength).symm

/-! ### The whole loop -/

/-- **The run lemma.** What a loop finds is sound. -/
theorem Finds.sound (h : Finds inst ps f g) (hf : Sound inst f) : Sound inst g := by
  induction h with
  | stop _ => exact hf.scan ps
  | again _ _ ih => exact ih (hf.scan ps)

/-- At the end of a loop that visits all predicates nothing is missing. -/
theorem Finds.saturated (h : Finds inst ps f g)
    (hps : ∀ p, p ∈ ps ↔ p < inst.preds.length) : inst.Saturated {p | p ∈ g.safe} := by
  induction h with
  | @stop f hstop =>
    intro p refs hrefs hsub
    have hp : p < inst.preds.length := by
      apply lt_of_definition?_isSome
      rw [← mentions?_isSome, hrefs]
      rfl
    -- The last scan has added nothing, so it has started with all that it has ended with.
    refine mem_safe_scan ((hps p).2 hp) ⟨refs, hrefs, fun q hq => ?_⟩
    rw [← hstop]
    exact hsub q hq
  | again _ _ ih => exact ih

/-- **The loop ends.** Every scan but the last one adds a predicate, and there are only as many as
the table has. -/
theorem exists_finds (ps : List Nat) (hf : Sound inst f) : ∃ g, Finds inst ps f g := by
  induction hk : inst.preds.length - f.safe.length using Nat.strong_induction_on
    generalizing f with
  | _ k ih =>
    by_cases hstop : (f.scan inst ps).safe = f.safe
    · exact ⟨_, .stop hstop⟩
    · have hle := (hf.scan ps).resolved.length_le
      have hlt := length_lt_scan hstop
      obtain ⟨g, hg⟩ := ih _ (by omega) (hf.scan ps) rfl
      exact ⟨g, .again hstop hg⟩

/-- What a loop over all predicates finds is the least saturated set. -/
theorem Finds.isLeast (h : Finds inst ps none g) (hps : ∀ p, p ∈ ps ↔ p < inst.preds.length) :
    IsLeast {S | inst.Saturated S} {p | p ∈ g.safe} :=
  ⟨h.saturated hps, fun _ hS => (h.sound (sound_none inst)).resolved.subset hS⟩

/-- The positive predicates that are found are those whose definition mentions nothing. -/
theorem Finds.mem_positive (h : Finds inst ps none g)
    (hps : ∀ p, p ∈ ps ↔ p < inst.preds.length) (p : Nat) :
    p ∈ g.positive ↔ inst.mentions? p = some [] := by
  rw [(h.sound (sound_none inst)).positive]
  exact and_iff_right_of_imp fun hm => h.saturated hps p [] hm (List.forall_mem_nil _)

end Found

/-! ### The rounds -/

theorem safeOver_iff {f : Found} : inst.safeOver f.safe p = true ↔ f.Qualifies inst p := by
  unfold safeOver Found.Qualifies
  cases inst.mentions? p with
  | none => simp
  | some refs => simp [List.subset_def]

/-- A round is a scan in ascending order. -/
theorem safe_scan_range (inst : Instance) (f : Found) :
    (f.scan inst (List.range inst.preds.length)).safe = inst.safeRound f.safe := by
  unfold safeRound
  generalize List.range inst.preds.length = ps
  induction ps generalizing f with
  | nil => rfl
  | cons p ps ih =>
    rw [Found.scan_cons, ih, List.foldl_cons]
    congr 1
    -- The two loops ask the same of a predicate before they add it.
    have hiff : (!f.safe.contains p && inst.safeOver f.safe p) = true ↔
        p ∉ f.safe ∧ f.Qualifies inst p := by
      rw [Bool.and_eq_true, safeOver_iff, Bool.not_eq_true', List.contains_eq_mem,
        decide_eq_false_iff_not]
    rcases Found.visit_cases inst f p with ⟨heq, hsafe⟩ | ⟨hp, hrefs, heq⟩ |
      ⟨refs, hp, hrefs, -, hsub, heq⟩ <;> rw [heq]
    · exact (if_neg fun h => (hiff.1 h).1 (hsafe (hiff.1 h).2)).symm
    · exact (if_pos (hiff.2 ⟨hp, [], hrefs, List.nil_subset _⟩)).symm
    · exact (if_pos (hiff.2 ⟨hp, refs, hrefs, hsub⟩)).symm

/-- With a round for each predicate that is still missing, the rounds are the whole loop. -/
theorem safeRounds_eq {f g : Found} {fuel : Nat}
    (h : Found.Finds inst (List.range inst.preds.length) f g) (hf : Found.Sound inst f)
    (hfuel : inst.preds.length < fuel + f.safe.length) :
    inst.safeRounds fuel f.safe = g.safe := by
  induction h generalizing fuel with
  | @stop f hstop =>
    cases fuel with
    | zero => exact hstop.symm
    | succ fuel => rw [safeRounds, ← safe_scan_range, hstop, if_pos rfl]
  | @again f g hne _ ih =>
    -- No more predicates are safe than there are, and a round that is not the last adds one.
    have hle := (hf.scan (List.range inst.preds.length)).resolved.length_le
    have hlt := Found.length_lt_scan hne
    cases fuel with
    | zero => omega
    | succ fuel =>
      rw [safeRounds, ← safe_scan_range, if_neg (by omega)]
      exact ih (hf.scan _) (by omega)

/-- The safe predicates are the least saturated set. -/
theorem isLeast_safePredicates (inst : Instance) :
    IsLeast {S | inst.Saturated S} {p | p ∈ inst.safePredicates} := by
  obtain ⟨g, hg⟩ := Found.exists_finds (List.range inst.preds.length) (Found.sound_none inst)
  have hrounds : inst.safeRounds (inst.preds.length + 1) [] = g.safe :=
    safeRounds_eq hg (Found.sound_none inst) (by omega)
  have hleast := hg.isLeast fun p => List.mem_range
  -- The result is sorted by number, which loses nothing: all safe predicates are in range.
  have hmem : {p | p ∈ inst.safePredicates} = {p | p ∈ g.safe} := by
    ext p
    have hbound : p ∈ g.safe → p < inst.preds.length := by
      intro hp
      obtain ⟨d, hd, -⟩ := (hg.sound (Found.sound_none inst)).resolved.definition hp
      exact lt_of_definition?_isSome (hd ▸ rfl)
    show p ∈ inst.safePredicates ↔ p ∈ g.safe
    unfold safePredicates
    rw [hrounds, List.mem_filter, List.mem_range, List.contains_iff_mem]
    exact and_iff_right_of_imp hbound
  rwa [hmem]

/-! ### The result -/

/-- **The safe predicates are a least set.** In whatever order the predicates are visited, the loop
ends, and it has found the safe and the positive predicates. The safe ones are the least set that
contains each defined predicate all of whose mentions it contains, and a predicate is one of them if
and only if every chain of mentions that starts from it is finite and passes through defined
predicates only. The positive ones are those whose definition mentions nothing; they are safe. -/
theorem finds_least (inst : Instance) :
    (∀ ps : List Nat, (∀ p, p ∈ ps ↔ p < inst.preds.length) →
      (∃ g, Found.Finds inst ps Found.none g) ∧
      ∀ g, Found.Finds inst ps Found.none g →
        (∀ p, p ∈ g.safe ↔ p ∈ inst.safePredicates) ∧
        ∀ p, p ∈ g.positive ↔ p ∈ inst.positivePredicates) ∧
    IsLeast {S | inst.Saturated S} {p | p ∈ inst.safePredicates} ∧
    (∀ p, p ∈ inst.safePredicates ↔
      (¬∃ chain : ℕ → ℕ, chain 0 = p ∧ ∀ i, inst.Refers (chain i) (chain (i + 1))) ∧
      ∀ q, Relation.ReflTransGen inst.Refers p q → (inst.definition? q).isSome) ∧
    (∀ p, p ∈ inst.positivePredicates ↔
      ∃ d, inst.definition? p = some d ∧ inst.predsIn d.body = []) ∧
    inst.positivePredicates ⊆ inst.safePredicates := by
  have hleast := inst.isLeast_safePredicates
  refine ⟨fun ps hps => ⟨Found.exists_finds ps (Found.sound_none inst), fun g hg => ⟨?_, ?_⟩⟩,
    hleast, fun p => ?_, fun p => ?_, fun p hp => ?_⟩
  · -- There is only one least set.
    intro p
    have hsame : {p | p ∈ g.safe} = {p | p ∈ inst.safePredicates} :=
      (hg.isLeast hps).unique hleast
    exact Set.ext_iff.1 hsame p
  · intro p
    rw [hg.mem_positive hps, mem_positivePredicates]
  · rw [← acc_refers_iff]
    constructor
    · intro hp
      obtain ⟨l, hl, hsafe⟩ := inst.exists_resolved_iff
      exact ⟨hl.acc p ((hsafe p).1 hp), fun q hq => hl.isSome_of_reaches ((hsafe p).1 hp) hq⟩
    · rintro ⟨hacc, hdefined⟩
      exact Saturated.mem_of_acc hleast.1 hacc hdefined
  · rw [mem_positivePredicates]
    exact Option.map_eq_some_iff
  · exact hleast.1 p [] (mem_positivePredicates.1 hp) (List.forall_mem_nil _)

/-- The first predicate is safe by the second one, and the other two mention each other. -/
example :
    let atom (name : String) : Term := .fn ⟨name, [], .bool⟩ []
    let pred (name : String) (body : Term) : Predicate := ⟨name, [], [], [], some ⟨[], body⟩⟩
    let inst : Instance := ⟨"twisted", [pred "A" (atom "B"), pred "B" .verum,
      pred "C" (.neg (atom "D")), pred "D" (atom "C")], [], [[], [], [], []], [[], [], [], []],
      0, []⟩
    inst.safePredicates = [0, 1] ∧ inst.positivePredicates = [1] := by decide

end Instance
end Horn
