import Horn.Proofs.EntryPoints.Recover
import Horn.Proofs.Sample.Value
import Horn.Proofs.Semantics.Clauses

/-!
# The order of samples does not matter

Two lists that contain the same samples (`Sample.SameSet`), in whatever order and however often,
have the same outcome (`Reconstruction.results_sameSet`): reconstruction succeeds for both or for
none, and then it finds the same set, the union of what is found for each sample alone. The sessions
that the two runs work on go through different queries, but what is recovered for a sample does not
depend on them (`Reconstruction.results_eq`), and equal samples have equal outcomes
(`Reconstruction.recovered_equal`): an argument is pinned to a value through the key of the value
only.
-/

namespace Horn

/-! ### Successes -/

section Successes

variable {ε α β : Type}

theorem toOption_bind (x : Except ε α) (f : α → Except ε β) :
    (x.bind f).toOption = x.toOption.bind fun a => (f a).toOption := by
  cases x <;> rfl

theorem toOption_mapError {ε' : Type} (x : Except ε α) (f : ε → ε') :
    (x.mapError f).toOption = x.toOption := by
  cases x <;> rfl

theorem toOption_eq_some {x : Except ε α} {a : α} : x.toOption = some a ↔ x = .ok a := by
  cases x with
  | error e => exact iff_of_false nofun nofun
  | ok b => exact ⟨fun h => congrArg Except.ok (Option.some.inj h), fun h => by rw [h]; rfl⟩

end Successes

namespace Sample

/-- Two samples are equal: they are one and the same, or they have the same key. Values without a
place in the order have no key to go by. -/
def Equal (s t : Sample) : Prop :=
  s = t ∨ (s.unsupported? = none ∧ t.unsupported? = none ∧ s.same t = true)

/-- Every sample of the first list is equal to one of the second list. -/
def Among (l l' : List Sample) : Prop := ∀ s ∈ l, ∃ t ∈ l', s.Equal t

/-- Two lists contain the same samples. -/
def SameSet (l l' : List Sample) : Prop := Among l l' ∧ Among l' l

instance (s t : Sample) : Decidable (s.Equal t) :=
  inferInstanceAs (Decidable (s = t ∨
    (s.unsupported? = none ∧ t.unsupported? = none ∧ s.same t = true)))

instance (l l' : List Sample) : Decidable (Among l l') :=
  inferInstanceAs (Decidable (∀ s ∈ l, ∃ t ∈ l', s.Equal t))

instance (l l' : List Sample) : Decidable (SameSet l l') :=
  inferInstanceAs (Decidable (Among l l' ∧ Among l' l))

end Sample

namespace Value

/-- The value has the key of the other one, and both have a place in the order. -/
theorem eq_unknown_iff_of_key {v v' : Value} (h : v.key = v'.key) :
    v = .unknown ↔ v' = .unknown := by
  cases v <;> cases v' <;> simp [key] at h ⊢

end Value

namespace Reconstruction

/-- Values with the same key are pinned to in the same way. -/
theorem pin_congr {v v' : Value} (h : v.key = v'.key) (hv : v.isSupported = true)
    (hv' : v'.isSupported = true) (arg : Term) : pin arg v = pin arg v' := by
  unfold pin
  simp only [Value.eq_unknown_iff_of_key h, Value.toTerm_congr h hv hv']

/-- So are the arguments of a conclusion. -/
theorem pinned_congr {vs vs' : List Value} (h : vs.map (·.key) = vs'.map (·.key))
    (hvs : ∀ v ∈ vs, v.isSupported = true) (hvs' : ∀ v ∈ vs', v.isSupported = true)
    (args : List Term) :
    ((args.zip vs).mapM fun a => pinned a.1 a.2) = (args.zip vs').mapM fun a => pinned a.1 a.2 := by
  induction args generalizing vs vs' with
  | nil => rfl
  | cons arg args ih =>
    cases vs with
    | nil => rw [List.map_eq_nil_iff.1 h.symm]
    | cons v vs =>
      -- Equal keys: the two lists of values are taken apart together.
      obtain ⟨v', vs', rfl, hv, h⟩ := List.map_eq_cons_iff.1 h.symm
      rw [List.forall_mem_cons] at hvs hvs'
      rw [List.zip_cons_cons, List.zip_cons_cons, List.mapM_cons, List.mapM_cons,
        ih h.symm hvs.2 hvs'.2]
      unfold pinned
      rw [pin_congr hv.symm hvs.1 hvs'.1]

variable {engine : Engine} {r : Reconstruction} {s t : Sample}

theorem isSupported_of_unsupported? (h : s.unsupported? = none) :
    ∀ v ∈ s.args, v.isSupported = true := by
  unfold Sample.unsupported? at h
  simpa using h

/-- A clause is as good for a sample as for an equal one. -/
theorem tried_equal (h : s.Equal t) (clause : Int) :
    (tried engine r s.pred s clause).toOption = (tried engine r t.pred t clause).toOption := by
  obtain rfl | ⟨hs, ht, h⟩ := h
  · rfl
  obtain ⟨hpred, hkeys⟩ := Sample.same_iff.1 h
  have hlength : s.args.length = t.args.length := by
    rw [← List.length_map (·.key), hkeys, List.length_map]
  unfold tried
  rw [toOption_bind, toOption_bind, hpred, hlength]
  congr
  funext c
  cases c.conclusion with
  | none => rfl
  | some a =>
    obtain ⟨p, args⟩ := a
    dsimp only
    split
    · -- The messages name the samples, but both fail.
      cases r.original.pred p with
      | error e => rfl
      | ok concluded => cases r.original.pred t.pred <;> rfl
    · split
      · rfl
      · unfold constraints
        rw [toOption_mapError, toOption_mapError,
          pinned_congr hkeys (isSupported_of_unsupported? hs) (isSupported_of_unsupported? ht)]

/-- **Equal samples have equal outcomes.** -/
theorem recovered_equal (h : s.Equal t) :
    (recovered engine r s.pred s).toOption = (recovered engine r t.pred t).toOption := by
  -- Clause by clause, the trials of equal samples have the same outcome.
  have hfirst : ∀ cs, (firstTried engine r s.pred s cs).toOption =
      (firstTried engine r t.pred t cs).toOption := by
    intro cs
    induction cs with
    | nil => rfl
    | cons c cs ih =>
      rw [firstTried, firstTried, toOption_bind, toOption_bind, tried_equal h]
      congr
      funext found
      cases found with
      | none => exact ih
      | some found => rfl
  have hpred : s.pred = t.pred := by
    obtain rfl | ⟨-, -, h⟩ := h
    · rfl
    · exact (Sample.same_iff.1 h).1
  unfold recovered Sample.textIn
  rw [hpred] at hfirst ⊢
  cases r.original.pred t.pred with
  | error e => rfl
  | ok q =>
    -- The text of the sample is only needed for a fault, and faults are not compared.
    change ((r.clausesFor t.pred).bind _).toOption = ((r.clausesFor t.pred).bind _).toOption
    rw [toOption_bind, toOption_bind]
    congr
    funext clauses
    rw [toOption_bind, toOption_bind, hfirst]
    congr
    funext found
    cases found <;> rfl

/-! ### Lists -/

section Results

variable {original working : Instance} {session : Session} {l l' : List Sample}

/-- A list of samples can be reconstructed if each of them can be recovered. -/
theorem results_succeeds_iff : (∃ m, results engine original working session l = .ok m) ↔
    ∃ r, started original working session = .ok r ∧
      ∀ s ∈ l, ∃ found, recovered engine r s.pred s = .ok found := by
  simp only [results_ok_iff]
  constructor
  · rintro ⟨m, r, hr, founds, hfounds, -⟩
    refine ⟨r, hr, fun s hs => ?_⟩
    obtain ⟨found, -, hfound⟩ :=
      (exists_of_forall₂ (mapM_eq_ok.1 hfounds)).1 s (List.mem_reverse.2 hs)
    exact ⟨found, hfound⟩
  · rintro ⟨r, hr, h⟩
    obtain ⟨founds, hfounds⟩ := exists_mapM_eq_ok fun s hs => h s (List.mem_reverse.1 hs)
    exact ⟨_, r, hr, founds, hfounds, rfl⟩

/-- What is found for a list of samples is found for one of them. -/
theorem has_results {r : Reconstruction} {m : SampleSet}
    (hr : started original working session = .ok r)
    (h : results engine original working session l = .ok m) (t : Sample) :
    m.has t = true ↔ ∃ s ∈ l, ∃ found, recovered engine r s.pred s = .ok found ∧
      SampleSet.has found t = true := by
  obtain ⟨r', hr', founds, hfounds, rfl⟩ := results_ok_iff.1 h
  obtain rfl := Except.ok.inj (hr.symm.trans hr')
  -- The samples and what is found for them correspond; the loop goes from the last one to the
  -- first.
  obtain ⟨hleft, hright⟩ := exists_of_forall₂ (mapM_eq_ok.1 hfounds)
  rw [SampleSet.has_union]
  change (false || SampleSet.has founds.flatten t) = true ↔ _
  rw [Bool.false_or, SampleSet.has_iff]
  constructor
  · rintro ⟨u, hu, hut⟩
    obtain ⟨found, hfound, hu⟩ := List.mem_flatten.1 hu
    obtain ⟨s, hs, hrec⟩ := hright found hfound
    exact ⟨s, List.mem_reverse.1 hs, found, hrec, SampleSet.has_iff.2 ⟨u, hu, hut⟩⟩
  · rintro ⟨s, hs, found, hrec, hhas⟩
    obtain ⟨found', hfound', hrec'⟩ := hleft s (List.mem_reverse.2 hs)
    obtain rfl := Except.ok.inj (hrec.symm.trans hrec')
    obtain ⟨u, hu, hut⟩ := SampleSet.has_iff.1 hhas
    exact ⟨u, List.mem_flatten.2 ⟨found, hfound', hu⟩, hut⟩

/-- What is recovered for a sample is recovered for an equal one. -/
theorem exists_recovered {r : Reconstruction} (h : Sample.Among l l') {s : Sample} (hs : s ∈ l)
    {found : List Sample} (hfound : recovered engine r s.pred s = .ok found) :
    ∃ t ∈ l', recovered engine r t.pred t = .ok found := by
  obtain ⟨t, ht, hst⟩ := h s hs
  refine ⟨t, ht, ?_⟩
  rw [← toOption_eq_some, ← recovered_equal hst, hfound]
  rfl

theorem succeeds_of_among (h : Sample.Among l' l)
    (hl : ∃ m, results engine original working session l = .ok m) :
    ∃ m', results engine original working session l' = .ok m' := by
  obtain ⟨r, hr, hall⟩ := results_succeeds_iff.1 hl
  refine results_succeeds_iff.2 ⟨r, hr, fun t ht => ?_⟩
  obtain ⟨s, hs, hts⟩ := h t ht
  obtain ⟨found, hfound⟩ := hall s hs
  refine ⟨found, ?_⟩
  rw [← toOption_eq_some, recovered_equal hts, hfound]
  rfl

theorem has_of_among (h : Sample.Among l l') {m m' : SampleSet}
    (hm : results engine original working session l = .ok m)
    (hm' : results engine original working session l' = .ok m') {t : Sample} (ht : m.has t = true) :
    m'.has t = true := by
  obtain ⟨r, hr, -⟩ := results_ok_iff.1 hm
  obtain ⟨s, hs, found, hfound, hhas⟩ := (has_results hr hm t).1 ht
  obtain ⟨s', hs', hfound'⟩ := exists_recovered h hs hfound
  exact (has_results hr hm' t).2 ⟨s', hs', found, hfound', hhas⟩

/-- What is found for a list is found for one of its samples alone. -/
theorem has_iff_singleton {m : SampleSet} (hm : results engine original working session l = .ok m)
    (t : Sample) : m.has t = true ↔
      ∃ s ∈ l, ∃ n, results engine original working session [s] = .ok n ∧ n.has t = true := by
  constructor
  · intro ht
    obtain ⟨r, hr, -⟩ := results_ok_iff.1 hm
    obtain ⟨s, hs, found, hfound, hhas⟩ := (has_results hr hm t).1 ht
    obtain ⟨n, hn⟩ := results_succeeds_iff.2 ⟨r, hr, List.forall_mem_singleton.2 ⟨found, hfound⟩⟩
    refine ⟨s, hs, n, hn, (has_results hr hn t).2 ?_⟩
    exact ⟨s, List.mem_singleton_self s, found, hfound, hhas⟩
  · rintro ⟨s, hs, n, hn, ht⟩
    have hsub : Sample.Among [s] l := List.forall_mem_singleton.2 ⟨s, hs, .inl rfl⟩
    exact has_of_among hsub hn hm ht

/-- **The order of samples does not matter.** For two lists that contain the same samples,
reconstruction succeeds for both or for none. If it does, both runs find the same set, which is the
union of what is found for the samples one at a time. -/
theorem results_sameSet (engine : Engine) (original working : Instance) (session : Session)
    {l l' : List Sample} (h : Sample.SameSet l l') :
    ((∃ m, results engine original working session l = .ok m) ↔
      ∃ m', results engine original working session l' = .ok m') ∧
    ∀ m m', results engine original working session l = .ok m →
      results engine original working session l' = .ok m' →
      ∀ t, m.has t = m'.has t ∧ (m.has t = true ↔ ∃ s ∈ l, ∃ n,
        results engine original working session [s] = .ok n ∧ n.has t = true) := by
  refine ⟨⟨succeeds_of_among h.2, succeeds_of_among h.1⟩, fun m m' hm hm' t => ⟨?_, ?_⟩⟩
  · exact Bool.eq_iff_iff.2 ⟨has_of_among h.1 hm hm', has_of_among h.2 hm' hm⟩
  · exact has_iff_singleton hm t

end Results

/-- The predicates `A(x)` and `B(x)` with the clause `A(x) → B(x)`. -/
def passed : Instance where
  name := "passed"
  preds := [⟨"A", [.int], [.int], [0], none⟩, ⟨"B", [.int], [.int], [0], none⟩]
  clauses := [⟨0, [⟨"x", .int⟩], [], [⟨0, [[.const ⟨"x", .int⟩]]⟩],
    some (1, [.const ⟨"x", .int⟩]), false, true⟩]
  users := [[0], []]
  producers := [[], [0]]
  holders := 0
  expansions := []

/-- The same predicates with the definition `A(x) := x > 0`. -/
def positives : Instance where
  name := "positives"
  preds := [
    ⟨"A", [.int], [.int], [0],
      some ⟨[⟨"A!0", .int⟩], .op .gt [.const ⟨"A!0", .int⟩, .int 0]⟩⟩,
    ⟨"B", [.int], [.int], [0], none⟩]
  clauses := []
  users := [[], []]
  producers := [[], []]
  holders := 0
  expansions := []

/-- The engine that takes the last formula for an equation, and all numbers for its right-hand side.
-/
def echoing : Engine where
  simplify t := t
  check ts := match ts.getLast? with
    | some (.op .eq [_, b]) => .sat ⟨fun _ => b⟩
    | _ => .unknown

/-- From `B(2)` and `B(3)` the facts `A(2)` and `A(3)` are found, also if `B(2)` is there twice. -/
theorem results_passed :
    ∃ m m', results echoing passed positives (Session.create "session" none)
        [⟨1, [.int 2]⟩, ⟨1, [.int 3]⟩] = .ok m ∧
      results echoing passed positives (Session.create "session" none)
        [⟨1, [.int 3]⟩, ⟨1, [.frac 2]⟩, ⟨1, [.int 2]⟩] = .ok m' ∧
      m = [⟨0, [.int 2]⟩, ⟨0, [.int 3]⟩] ∧ ∀ t, m.has t = m'.has t := by
  have hsame : Sample.SameSet [⟨1, [.int 2]⟩, ⟨1, [.int 3]⟩]
      [⟨1, [.int 3]⟩, ⟨1, [.frac 2]⟩, ⟨1, [.int 2]⟩] := by decide
  obtain ⟨hiff, h⟩ := results_sameSet echoing passed positives (Session.create "session" none) hsame
  have hm : results echoing passed positives (Session.create "session" none)
      [⟨1, [.int 2]⟩, ⟨1, [.int 3]⟩] = .ok [⟨0, [.int 2]⟩, ⟨0, [.int 3]⟩] :=
    toOption_eq_some.1 (by decide +kernel)
  obtain ⟨m', hm'⟩ := hiff.1 ⟨_, hm⟩
  exact ⟨_, m', hm, hm', rfl, fun t => (h _ m' hm hm' t).1⟩

end Reconstruction
end Horn
