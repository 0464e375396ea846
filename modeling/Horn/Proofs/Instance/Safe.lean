import Horn.EntryPoints.Safe
import Horn.Proofs.Instance.Search
import Horn.Proofs.Semantics.Interpretation

/-!
# Safe predicates have a meaning

The safe predicates of an instance can be listed so that every definition only mentions predicates
that come earlier (`Instance.Resolved`): this is the order in which the rounds of
`Instance.safeRounds` find them (`Instance.exists_resolved`).

Along that list definitions can be read off one after the other. If all defined predicates are safe
(`Instance.AllSafe`), every structure can thus be changed, at the predicates only, so that it reads
a given interpretation (`Instance.exists_reads`). No definition is circular, and none mentions an
undefined predicate (`Instance.AllSafe.closed`).
-/

namespace Horn
namespace Instance

variable {inst : Instance}

/-! ### The order of the safe predicates -/

/-- A list of different defined predicates, each of whose definitions only mentions predicates that
come earlier in the list. -/
inductive Resolved (inst : Instance) : List Nat → Prop
  | nil : Resolved inst []
  | snoc {l : List Nat} {p : Nat} {d : Definition} : Resolved inst l → p ∉ l →
      inst.definition? p = some d → (∀ r ∈ inst.predsIn d.body, r ∈ l) → Resolved inst (l ++ [p])

/-- Before a predicate of such a list stands a list of that kind with all that its definition
mentions. -/
theorem Resolved.before {l : List Nat} (h : Resolved inst l) {p : Nat} (hp : p ∈ l) :
    ∃ d l', inst.definition? p = some d ∧ Resolved inst l' ∧ l' ⊆ l ∧ p ∉ l' ∧
      l'.length < l.length ∧ ∀ r ∈ inst.predsIn d.body, r ∈ l' := by
  induction h with
  | nil => cases hp
  | @snoc l q d hl hq hd hrefs ih =>
    rw [List.length_append, List.length_singleton]
    rw [List.mem_append, List.mem_singleton] at hp
    -- The predicate is in the rest of the list, or it is the last one.
    rcases hp with hp | rfl
    · obtain ⟨d, l', hd, hl', hsub, hpl', hlt, hrefs⟩ := ih hp
      exact ⟨d, l', hd, hl', List.subset_append_of_subset_left _ hsub, hpl', by omega, hrefs⟩
    · exact ⟨d, l, hd, hl, List.subset_append_left _ _, hq, by omega, hrefs⟩

/-- The predicates of such a list are defined, and their definitions stay inside the list. -/
theorem Resolved.definition {l : List Nat} (h : Resolved inst l) {p : Nat} (hp : p ∈ l) :
    ∃ d, inst.definition? p = some d ∧ ∀ r ∈ inst.predsIn d.body, r ∈ l := by
  obtain ⟨d, l', hd, -, hsub, -, -, hrefs⟩ := h.before hp
  exact ⟨d, hd, fun r hr => hsub (hrefs r hr)⟩

/-- No predicate comes twice in such a list. -/
theorem Resolved.nodup {l : List Nat} (h : Resolved inst l) : l.Nodup := by
  induction h with
  | nil => exact List.nodup_nil
  | snoc _ hp _ _ ih =>
    rw [List.nodup_append]
    refine ⟨ih, List.nodup_singleton _, fun a ha b hb => ?_⟩
    rw [List.mem_singleton] at hb
    exact ne_of_mem_of_not_mem ha (hb ▸ hp)

/-- Only the entries of the table can have a definition. -/
theorem lt_of_definition?_isSome {p : Nat} (h : (inst.definition? p).isSome) :
    p < inst.preds.length := by
  by_contra hlt
  rw [definition?, List.getElem?_eq_none (Nat.le_of_not_lt hlt)] at h
  cases h

theorem mentions?_isSome {p : Nat} : (inst.mentions? p).isSome = (inst.definition? p).isSome :=
  Option.isSome_map

/-- A positive predicate is defined by a formula that mentions no predicate. -/
theorem mem_positivePredicates {p : Nat} :
    p ∈ inst.positivePredicates ↔ inst.mentions? p = some [] := by
  unfold positivePredicates
  rw [List.mem_filter, List.mem_range, beq_iff_eq]
  refine and_iff_right_of_imp fun hp => ?_
  apply lt_of_definition?_isSome
  rw [← mentions?_isSome, hp]
  rfl

/-- Such a list is at most as long as the table. -/
theorem Resolved.length_le {l : List Nat} (h : Resolved inst l) : l.length ≤ inst.preds.length := by
  have hsub : l ⊆ List.range inst.preds.length := by
    intro p hp
    obtain ⟨d, hd, -⟩ := h.definition hp
    exact List.mem_range.2 (lt_of_definition?_isSome (hd ▸ rfl))
  have hle := (h.nodup.subperm hsub).length_le
  rwa [List.length_range] at hle

/-- A round only appends predicates that have become safe. -/
theorem Resolved.safeRound {safe : List Nat} (h : Resolved inst safe) :
    Resolved inst (inst.safeRound safe) := by
  unfold Instance.safeRound
  generalize List.range inst.preds.length = ps
  induction ps generalizing safe with
  | nil => exact h
  | cons p ps ih =>
    rw [List.foldl_cons]
    apply ih
    -- A predicate is appended once all that its definition mentions is safe.
    split
    · next hc =>
      rw [Bool.and_eq_true, Bool.not_eq_true', List.contains_eq_mem, decide_eq_false_iff_not] at hc
      obtain ⟨hp, hsafe⟩ := hc
      unfold safeOver mentions? at hsafe
      cases hd : inst.definition? p with
      | none => simp [hd] at hsafe
      | some d =>
        simp only [hd, Option.map_some, List.all_eq_true, List.contains_eq_mem,
          decide_eq_true_eq] at hsafe
        exact h.snoc hp hd hsafe
    · exact h

theorem Resolved.safeRounds {safe : List Nat} (h : Resolved inst safe) (fuel : Nat) :
    Resolved inst (inst.safeRounds fuel safe) := by
  induction fuel generalizing safe with
  | zero => exact h
  | succ fuel ih =>
    rw [Instance.safeRounds]
    split
    · exact h
    · exact ih h.safeRound

/-- The safe predicates, in the order in which they are found. -/
theorem exists_resolved_iff (inst : Instance) :
    ∃ l, Resolved inst l ∧ ∀ p, p ∈ inst.safePredicates ↔ p ∈ l := by
  have hl : Resolved inst (inst.safeRounds (inst.preds.length + 1) []) :=
    Resolved.nil.safeRounds _
  refine ⟨_, hl, fun p => ?_⟩
  unfold safePredicates
  rw [List.mem_filter, List.mem_range, List.contains_iff_mem]
  refine and_iff_right_of_imp fun hp => ?_
  obtain ⟨d, hd, -⟩ := hl.definition hp
  exact lt_of_definition?_isSome (hd ▸ rfl)

theorem exists_resolved (inst : Instance) :
    ∃ l, Resolved inst l ∧ ∀ p ∈ inst.safePredicates, p ∈ l := by
  obtain ⟨l, hl, hsafe⟩ := inst.exists_resolved_iff
  exact ⟨l, hl, fun p => (hsafe p).1⟩

/-! ### Reading safe definitions -/

/-- All defined predicates are safe. -/
def AllSafe (inst : Instance) : Prop :=
  ∀ p, (inst.definition? p).isSome → p ∈ inst.safePredicates

instance (inst : Instance) : Decidable inst.AllSafe :=
  decidable_of_iff (∀ p ∈ List.range inst.preds.length,
      (inst.definition? p).isSome → p ∈ inst.safePredicates)
    ⟨fun h p hp => h p (List.mem_range.2 (lt_of_definition?_isSome hp)) hp, fun h p _ => h p⟩

/-- Safe definitions do not mention undefined predicates. -/
theorem AllSafe.closed (h : inst.AllSafe) : ClosedDefinitions inst.preds := by
  rintro q hq d hqd f hf ⟨r, hr, hrd, rfl⟩
  obtain ⟨l, hl, hsafe⟩ := inst.exists_resolved
  obtain ⟨i, hi⟩ := List.getElem?_of_mem hq
  obtain ⟨j, hj⟩ := List.getElem?_of_mem hr
  have hdi : inst.definition? i = some d := by
    unfold definition?
    rw [hi, Option.bind_some, hqd]
  obtain ⟨d', hd', hrefs⟩ := hl.definition (hsafe i (h i (by rw [hdi]; rfl)))
  obtain rfl : d = d' := Option.some.inj (hdi.symm.trans hd')
  -- What a resolved definition mentions is resolved, hence defined.
  obtain ⟨e, he, -⟩ := hl.definition (hrefs j (mem_predsIn.2 ⟨r, hj, hf⟩))
  unfold definition? at he
  rw [hj, Option.bind_some, hrd] at he
  cases he

variable {U : Universe}

/-- **One definition after the other.** A structure can be changed at the predicates so that the
undefined ones are as an interpretation says, and those of a resolved list as their definitions
say. -/
theorem Resolved.exists_reads (hn : DistinctNames inst.preds) {l : List Nat}
    (hl : Resolved inst l) (M : Structure U) (J : Interpretation inst.preds) :
    ∃ N : Structure U,
      Structure.Agree (fun f => ∀ q ∈ inst.preds, q.symbol ≠ f) N M ∧
      (∀ {p q es}, inst.preds[p]? = some q → q.definition = none → Fits q.sorts es →
        (N.Rel q es ↔ J.rel N p es)) ∧
      ∀ {p q d es}, p ∈ l → inst.preds[p]? = some q → q.definition = some d → Fits q.sorts es →
        (N.Rel q es ↔ (N.assign (d.params.zip es)).Sat d.body) := by
  induction hl with
  -- At first only the undefined predicates are changed.
  | nil =>
    refine ⟨M.obeying J, (Structure.agree_obeying M J).mono ?_, ?_, ?_⟩
    · rintro f hf ⟨q, hq, -, hqf⟩
      exact hf q hq hqf
    · intro p q es hp hq hes
      rw [Structure.rel_obeying hn M J hp hq, ← J.congr M _ (Structure.sameFunctions_obeying M J)]
      simp [hes]
    · intro p q d es hp
      cases hp
  | @snoc l p d hl hpl hd hrefs ih =>
    obtain ⟨N, hN, hund, hdef⟩ := ih
    unfold definition? at hd
    obtain ⟨q, hq, hqd⟩ := Option.bind_eq_some_iff.1 hd
    -- Only the meaning of the next predicate changes; nothing read so far depends on it.
    let r : List (Element U) → Prop := fun es => (N.assign (d.params.zip es)).Sat d.body
    have hframe := N.agree_redefine q r
    have hbody : ∀ {d' : Definition} (es : List (Element U)),
        (∀ r ∈ inst.predsIn d'.body, r ∈ l) →
        (((N.redefine q r).assign (d'.params.zip es)).Sat d'.body ↔
          (N.assign (d'.params.zip es)).Sat d'.body) := by
      intro d' es hd'
      refine Structure.sat_congr ((hframe.mono fun f hf hfq => ?_).assign _)
      exact hpl (hd' p (mem_predsIn.2 ⟨q, hq, hfq ▸ hf⟩))
    have hother : ∀ {p' q' es}, inst.preds[p']? = some q' → p' ≠ p →
        ((N.redefine q r).Rel q' es ↔ N.Rel q' es) := fun hq' hne =>
      N.rel_redefine_of_ne (fun hs => hne (hn.index_eq hq' hq hs)) r _
    refine ⟨N.redefine q r, ?_, ?_, ?_⟩
    · exact (hframe.mono fun f hf hfq => hf q (List.mem_of_getElem? hq) hfq.symm).trans hN
    · intro p' q' es hp' hq' hes
      have hne : p' ≠ p := by
        rintro rfl
        obtain rfl : q = q' := Option.some.inj (hq.symm.trans hp')
        rw [hqd] at hq'
        cases hq'
      have hfun : (N.redefine q r).SameFunctions inst.preds N :=
        hframe.mono fun f hf hfq => hf.2 q (List.mem_of_getElem? hq) hfq.symm
      rw [hother hp' hne, J.congr _ N hfun]
      exact hund hp' hq' hes
    · intro p' q' d' es hp' hq' hd' hes
      rw [List.mem_append, List.mem_singleton] at hp'
      rcases hp' with hp' | rfl
      · -- A predicate that comes before.
        obtain ⟨d'', hd'', hrefs'⟩ := hl.definition hp'
        unfold definition? at hd''
        rw [hq', Option.bind_some, hd', Option.some.injEq] at hd''
        subst hd''
        rw [hother hq' (fun h => hpl (h ▸ hp')), hbody es hrefs']
        exact hdef hp' hq' hd' hes
      · obtain rfl : q = q' := Option.some.inj (hq.symm.trans hq')
        obtain rfl : d = d' := Option.some.inj (hqd.symm.trans hd')
        rw [hbody es hrefs]
        exact N.rel_redefine_self q r es

/-- If all defined predicates are safe, every structure can be changed at the predicates so that it
reads an interpretation. -/
theorem AllSafe.exists_reads (h : inst.AllSafe) (hn : DistinctNames inst.preds)
    (M : Structure U) (J : Interpretation inst.preds) :
    ∃ N : Structure U, Structure.Agree (fun f => ∀ q ∈ inst.preds, q.symbol ≠ f) N M ∧
      N.Reads J := by
  obtain ⟨l, hl, hsafe⟩ := inst.exists_resolved
  obtain ⟨N, hN, hund, hdef⟩ := hl.exists_reads hn M J
  refine ⟨N, hN, hund, ?_⟩
  intro q d es hq hqd hes
  obtain ⟨p, hp⟩ := List.getElem?_of_mem hq
  refine hdef (hsafe p (h p ?_)) hp hqd hes
  unfold definition?
  rw [hp, Option.bind_some, hqd]
  rfl

end Instance
end Horn
