import Horn.Proofs.Split.Lessons

/-!
# The rounds of the split loop

In each round of the loop a part is produced, and the learner is called on it if preprocessing has
not decided it. A `Round` keeps both calls, so that what the round amounts to can be read off it
(`Round.finding`). The rest of the loop is bookkeeping, and this module says what the books hold.

* `SplitState.Conducted` are the books after a number of rounds: the calls that were made, what they
  were given (`Round.Due`), the holders of the instance, and the parts as they were left.
* `exists_begins` says all that the first half of a round does, and `Underway.handled` puts the
  second half in the books.
* `exists_round` is the step lemma and `exists_rounds` the run lemma. A loop conducts rounds until
  one of them ends it or the agenda has been worked through (`SplitState.Ends`).
* `solve_conducted` is the same for `Horn.solve`, which lets the instance go at the end.
-/

namespace Horn

variable {π κ : Type}

/-! ### Rounds -/

/-- One round of the loop: a part is produced, by a call of the preprocessor or as the instance
itself, and the learner is called on it or not. -/
structure Round where
  reduction : Option Reduction
  lesson : Option Lesson

namespace Round

/-- The calls of the preprocessor. -/
def reductions (rounds : List Round) : List Reduction := rounds.filterMap (·.reduction)

/-- The calls of the learner. -/
def lessons (rounds : List Round) : List Lesson := rounds.filterMap (·.lesson)

/-- The clause that is isolated; none for the instance itself. -/
def clause? (r : Round) : Option Nat := r.reduction.map (·.clause)

/-- The part that is produced. -/
def produced (r : Round) : Except Fault Reduced :=
  match r.reduction with
  | none => .ok .whole
  | some c => c.produced

/-- What the round amounts to. -/
def finding (engine : Engine) (inst : Instance) (r : Round) : Except Fault Finding :=
  r.produced.bind (Reduced.finding engine inst r.lesson)

/-- The loop goes on after the round. -/
def GoesOn (engine : Engine) (inst : Instance) (r : Round) : Prop :=
  ∃ model, r.finding engine inst = .ok (.learned model)

/-- The call of the learner, unless it is not called. One on the instance itself is `none`. -/
def called? (r : Round) : Option (Option Lesson) :=
  match r.produced, r.lesson with
  | .ok .whole, some _ => some none
  | .ok (.sub _), some l => some (some l)
  | _, _ => none

/-- The calls of the learner, the last one first. -/
def called (rounds : List Round) : List (Option Lesson) := (rounds.filterMap called?).reverse

/-- The holds of the collaborators on the instance after some rounds. -/
def holdsOnTop (rounds : List Round) : Nat :=
  Reduction.heldAfter (reductions rounds) +
    (Lesson.heldAfter (lessons rounds)).onTop (called rounds)

/-- The parts that the learner has been called on, the last one first, without its holds. -/
def parts (engine : Engine) (inst : Instance) (rounds : List Round) : List (Option Instance) :=
  (called rounds).map (Option.map (Lesson.unheld engine inst))

/-- What is known after some rounds. -/
def accumulated (engine : Engine) (inst : Instance) (rounds : List Round) : Accumulator :=
  rounds.foldl (fun m r =>
    match r.finding engine inst with
    | .ok f => f.record engine inst m
    | .error _ => m) Accumulator.empty

/-- The part that is left to the learner after some rounds, if there is one. The instance itself is
held by the splitter and by those collaborators that have not released it. -/
def part? (inst : Instance) (before : List Round) (r : Round) : Option Instance :=
  match r.produced with
  | .ok .whole => some (inst.held (1 + holdsOnTop (before ++ [⟨r.reduction, none⟩])))
  | .ok (.sub part) => some part
  | _ => none

/-- What a round is given by the rounds before it. None of these has ended the loop. -/
structure Due (engine : Engine) (inst : Instance) (asks : Bool) (before : List Round) (r : Round) :
    Prop where
  goesOn : ∀ b ∈ before, b.GoesOn engine inst
  top : ∀ c, r.reduction = some c → c.top = inst.held (1 + holdsOnTop before)
  excluded : ∀ c, r.reduction = some c → c.excluded = Reduction.isolated (reductions before)
  lesson : r.lesson.map (fun l => (l.part, l.background)) =
    if asks then (r.part? inst before).map (·, accumulated engine inst before) else none
  /-- The learner has the holds on the part that it had before, until it changes them. -/
  holds : ∀ l, r.lesson = some l →
    l.before = (Lesson.heldAfter (lessons before)).next.onLast (called (before ++ [r])) ∧
      l.after = l.holds.onLast (called (before ++ [r]))

section Concat

variable (engine : Engine) (inst : Instance) (rounds : List Round) (r : Round)

theorem reductions_concat :
    reductions (rounds ++ [r]) = reductions rounds ++ r.reduction.toList := by
  unfold reductions
  cases h : r.reduction <;> simp [h]

theorem lessons_concat : lessons (rounds ++ [r]) = lessons rounds ++ r.lesson.toList := by
  unfold lessons
  cases h : r.lesson <;> simp [h]

theorem called_concat : called (rounds ++ [r]) = r.called?.toList ++ called rounds := by
  unfold called
  cases h : r.called? <;> simp [h]

/-- Without a lesson there is no call. -/
theorem called?_none (reduction? : Option Reduction) :
    (⟨reduction?, none⟩ : Round).called? = none := by
  unfold called?
  split
  · next hlesson => cases hlesson
  · next hlesson => cases hlesson
  · rfl

/-- The holds on the instance when the preprocessor has been called and the learner has not. -/
theorem holdsOnTop_concat_none (reduction? : Option Reduction) :
    holdsOnTop (rounds ++ [⟨reduction?, none⟩]) =
      Reduction.heldAfter (reductions rounds ++ reduction?.toList) +
        (Lesson.heldAfter (lessons rounds)).onTop (called rounds) := by
  rw [holdsOnTop, reductions_concat, lessons_concat, called_concat, called?_none]
  simp

theorem accumulated_concat {f : Finding} (h : r.finding engine inst = .ok f) :
    accumulated engine inst (rounds ++ [r]) =
      f.record engine inst (accumulated engine inst rounds) := by
  simp [accumulated, h]

end Concat

/-- What is said of each round and those before it, for one round more. -/
theorem forall_splits_concat {P : List Round → Round → Prop} {rounds : List Round} {r : Round}
    (h : ∀ before b after, rounds = before ++ b :: after → P before b) (hr : P rounds r) :
    ∀ before b after, rounds ++ [r] = before ++ b :: after → P before b := by
  intro before b after heq
  rcases List.eq_nil_or_concat after with rfl | ⟨init, last, rfl⟩
  · obtain ⟨rfl, hlast⟩ := List.append_inj' heq rfl
    obtain rfl := List.singleton_inj.1 hlast
    exact hr
  · rw [List.concat_eq_append, ← List.cons_append, ← List.append_assoc] at heq
    obtain ⟨rfl, -⟩ := List.append_inj' heq rfl
    exact h before b init rfl

end Round

/-! ### The books -/

/-- A splitter stands where it did, however often others hold the instance. -/
theorem Splitter.Stands.hold {p : Preprocessor π} {inst : Instance} {config : SplitConfig}
    {v₀ : Visitor π} {calls : List Reduction} {k : Nat} {s : Splitter π}
    (h : Stands p inst config v₀ calls k s) (n : Nat) :
    Stands p inst config v₀ calls k
      { s with top := inst.held (n + 1 + s.preprocessor.holds.last) } :=
  ⟨h.isOpen, ⟨n, rfl⟩, h.progress, h.clauses, h.isolated, h.made⟩

namespace SplitState

/-- The books of the loop after some rounds. -/
structure Conducted (engine : Engine) (inst : Instance) (config : SplitConfig)
    (p : Preprocessor π) (learner? : Option (Learner κ)) (p₀ : π) (l₀ : κ) (rounds : List Round)
    (s : SplitState π κ) : Prop where
  stands : Splitter.Stands p inst config ⟨p₀, 0⟩ (Round.reductions rounds) rounds.length s.splitter
  agenda : rounds.map Round.clause? <+: Splitter.agenda inst config
  lessons : Lesson.Calls learner? ⟨l₀, 0⟩ (Round.lessons rounds) s.learner
  due : ∀ before r after, rounds = before ++ r :: after →
    r.Due engine inst (asks config learner?) before
  top : s.splitter.top = inst.held (1 + Round.holdsOnTop rounds)
  parts : s.parts = s.learner.holds.upon (Round.parts engine inst rounds)

/-- The books between two rounds: none of the rounds has ended the loop, and what they have learned
is known. -/
structure Underway (engine : Engine) (inst : Instance) (config : SplitConfig)
    (p : Preprocessor π) (learner? : Option (Learner κ)) (p₀ : π) (l₀ : κ) (rounds : List Round)
    (s : SplitState π κ) : Prop where
  books : Conducted engine inst config p learner? p₀ l₀ rounds s
  goesOn : ∀ r ∈ rounds, r.GoesOn engine inst
  candidates : s.candidates = Round.accumulated engine inst rounds

/-- The first half of a round, by which the preprocessor is called or the instance itself is handed
over. -/
structure Begins (inst : Instance) (config : SplitConfig) (p : Preprocessor π) (p₀ : π)
    (rounds : List Round) (reduction? : Option Reduction) (sp : Splitter π) : Prop where
  stands : Splitter.Stands p inst config ⟨p₀, 0⟩ (Round.reductions rounds ++ reduction?.toList)
    (rounds.length + 1) sp
  clause : (Splitter.agenda inst config)[rounds.length]? = some (reduction?.map (·.clause))
  callTop : ∀ c, reduction? = some c → c.top = inst.held (1 + Round.holdsOnTop rounds)
  callExcluded : ∀ c, reduction? = some c →
    c.excluded = Reduction.isolated (Round.reductions rounds)
  top : sp.top = inst.held (1 + Round.holdsOnTop (rounds ++ [⟨reduction?, none⟩]))

variable {engine : Engine} {inst : Instance} {config : SplitConfig} {p : Preprocessor π}
  {learner? : Option (Learner κ)} {p₀ : π} {l₀ : κ} {rounds : List Round}

/-- Before the first round nothing has been done. -/
theorem underway_create (engine : Engine) (inst : Instance) (config : SplitConfig)
    (p : Preprocessor π) (learner? : Option (Learner κ)) (p₀ : π) (l₀ : κ) :
    Underway engine inst config p learner? p₀ l₀ [] (create inst config p₀ l₀) := by
  refine ⟨⟨Splitter.stands_create p inst config p₀, List.nil_prefix, .none _, ?_, rfl, rfl⟩,
    List.forall_mem_nil _, rfl⟩
  intro before r after h
  simp at h

/-- After a round that the loop goes on after. -/
theorem Underway.next {s s' : SplitState π κ} {r : Round} {model : Definitions}
    (h : Underway engine inst config p learner? p₀ l₀ rounds s)
    (hbooks : Conducted engine inst config p learner? p₀ l₀ (rounds ++ [r]) s')
    (hfinding : r.finding engine inst = .ok (.learned model))
    (hcandidates : s'.candidates =
      (Finding.learned model).record engine inst (Round.accumulated engine inst rounds)) :
    Underway engine inst config p learner? p₀ l₀ (rounds ++ [r]) s' := by
  refine ⟨hbooks, ?_, ?_⟩
  · intro b hb
    rcases List.mem_append.1 hb with hb | hb
    · exact h.goesOn b hb
    · obtain rfl := List.mem_singleton.1 hb
      exact ⟨model, hfinding⟩
  · rw [Round.accumulated_concat engine inst rounds r hfinding, hcandidates]

/-- **The first half of a round**, in all cases. -/
theorem exists_begins {w : World (SplitState π κ)}
    (h : Conducted engine inst config p learner? p₀ l₀ rounds w.1) :
    (∃ log, (produce config p).runFrom w = (.ok none, w.1, log) ∧
        rounds.map Round.clause? = Splitter.agenda inst config) ∨
      ∃ reduction? sp log, (produce config p).runFrom w =
          ((⟨reduction?, none⟩ : Round).produced.map some, { w.1 with splitter := sp }, log) ∧
        Begins inst config p p₀ rounds reduction? sp := by
  obtain ⟨log, hreport⟩ := runFrom_report config w
  -- The loop reports, then asks the splitter; the splitter's turn says what the production is.
  obtain ⟨t, sp, log', hadvance, htakes⟩ :=
    Splitter.exists_takes p (w := (w.1.splitter, log)) h.stands.isOpen
  have hrun : (produce config p).runFrom w = (t.answer, { w.1 with splitter := sp }, log') := by
    unfold produce
    rw [Act.runFrom_bind_of_ok hreport, runFrom_onSplitter, hadvance]
  have hturn := h.stands.turn htakes
  have hnext := h.stands.next htakes
  cases htakes with
  | spent =>
    -- Nothing pending: the clauses of the rounds are a prefix of the agenda that is as long as it.
    have hlength : (Splitter.agenda inst config).length ≤ rounds.length := hturn
    refine .inl ⟨log', hrun, h.agenda.eq_of_length_le ?_⟩
    rw [List.length_map]
    exact hlength
  | whole =>
    refine .inr ⟨none, _, log', hrun, hnext, hturn, nofun, nofun, h.top.trans ?_⟩
    rw [Round.holdsOnTop_concat_none, Option.toList_none, List.append_nil]
    rfl
  | @call c pending total v =>
    obtain ⟨hitem, hexcluded, htop⟩ := hturn
    refine .inr ⟨some c, _, log', hrun, hnext, hitem, ?_, ?_, ?_⟩
    · rintro _ ⟨⟩
      exact htop.trans h.top
    · rintro _ ⟨⟩
      exact hexcluded
    -- The call changes the holds of the preprocessor, and the others stay.
    · change w.1.splitter.top.rehold w.1.splitter.preprocessor.holds.last c.holds = _
      have hbefore : 1 + Round.holdsOnTop rounds =
          1 + (Lesson.heldAfter (Round.lessons rounds)).onTop (Round.called rounds) +
            w.1.splitter.preprocessor.holds.last := by
        rw [Round.holdsOnTop, h.stands.made.last_eq]
        omega
      have hafter : Reduction.heldAfter (Round.reductions rounds ++ [c]) = c.holds := by
        rw [Reduction.heldAfter, List.getLast?_concat]
        rfl
      rw [h.top, hbefore, Instance.rehold_held, Round.holdsOnTop_concat_none, Option.toList_some,
        hafter, Nat.add_right_comm, Nat.add_assoc]

/-- The books after one round more, when the part has been handled. -/
theorem Underway.concat {s s' : SplitState π κ} {sp : Splitter π} {r : Round}
    (h : Underway engine inst config p learner? p₀ l₀ rounds s)
    (hbegins : Begins inst config p p₀ rounds r.reduction sp)
    (hsplitter : s'.splitter = { sp with top := inst.held (1 + Round.holdsOnTop (rounds ++ [r])) })
    (hlessons : Lesson.Calls learner? ⟨l₀, 0⟩ (Round.lessons rounds ++ r.lesson.toList) s'.learner)
    (hparts : s'.parts = s'.learner.holds.upon (Round.parts engine inst (rounds ++ [r])))
    (hlesson : r.lesson.map (fun l => (l.part, l.background)) =
      if asks config learner? then
        (r.part? inst rounds).map (·, Round.accumulated engine inst rounds) else none)
    (hholds : ∀ l, r.lesson = some l →
      l.before = (Lesson.heldAfter (Round.lessons rounds)).next.onLast
          (Round.called (rounds ++ [r])) ∧
        l.after = l.holds.onLast (Round.called (rounds ++ [r]))) :
    Conducted engine inst config p learner? p₀ l₀ (rounds ++ [r]) s' := by
  refine ⟨?_, ?_, ?_, ?_, ?_, hparts⟩
  -- The splitter's books do not depend on how often others hold its top.
  · have hlast := hbegins.stands.made.last_eq
    rw [← Round.reductions_concat] at hlast
    have hsum : 1 + Round.holdsOnTop (rounds ++ [r]) =
        (Lesson.heldAfter (Round.lessons (rounds ++ [r]))).onTop (Round.called (rounds ++ [r])) +
          1 + sp.preprocessor.holds.last := by
      rw [Round.holdsOnTop, hlast]
      omega
    rw [Round.reductions_concat, List.length_append, hsplitter, hsum]
    exact hbegins.stands.hold _
  -- The item of this round is the next one of the agenda.
  · have hitem : (Splitter.agenda inst config)[(rounds.map Round.clause?).length]? =
        some r.clause? := by
      rw [List.length_map]
      exact hbegins.clause
    obtain ⟨hlt, hget⟩ := List.getElem?_eq_some_iff.1 hitem
    have hprefix := List.concat_get_prefix h.books.agenda hlt
    rw [List.get_eq_getElem, hget] at hprefix
    rw [List.map_append]
    exact hprefix
  · rw [Round.lessons_concat]
    exact hlessons
  · exact Round.forall_splits_concat h.books.due
      ⟨h.goesOn, hbegins.callTop, hbegins.callExcluded, hlesson, hholds⟩
  · rw [hsplitter]

/-- The books after a round in which the learner is not called. -/
theorem Underway.unasked {s : SplitState π κ} {sp : Splitter π} {reduction? : Option Reduction}
    (h : Underway engine inst config p learner? p₀ l₀ rounds s)
    (hbegins : Begins inst config p p₀ rounds reduction? sp)
    (hpart : asks config learner? = true →
      (⟨reduction?, none⟩ : Round).part? inst rounds = none) (m : Accumulator) :
    Conducted engine inst config p learner? p₀ l₀ (rounds ++ [⟨reduction?, none⟩])
      { s with splitter := sp, candidates := m } := by
  refine h.concat hbegins ?_ ?_ ?_ ?_ nofun
  · rw [← hbegins.top]
  · rw [Option.toList_none, List.append_nil]
    exact h.books.lessons
  · rw [Round.parts, Round.called_concat, Round.called?_none]
    exact h.books.parts
  · split
    · next hasks =>
      rw [hpart hasks]
      rfl
    · rfl

/-- The calls in the books are those on the parts in the state. -/
theorem Conducted.map_isNone {s : SplitState π κ}
    (h : Conducted engine inst config p learner? p₀ l₀ rounds s) :
    s.parts.map Option.isNone = (Round.called rounds).map Option.isNone := by
  rw [h.parts, Holds.map_isNone_upon, Round.parts, List.map_map]
  exact List.map_congr_left fun call _ => Option.isNone_map

/-- The books after a round in which the learner is called. -/
theorem Underway.asked {s s' : SplitState π κ} {sp : Splitter π} {reduction? : Option Reduction}
    {part : Option Instance} {learner : Learner κ} {l : Lesson}
    (h : Underway engine inst config p learner? p₀ l₀ rounds s)
    (hbegins : Begins inst config p p₀ rounds reduction? sp)
    (hproduced : (⟨reduction?, some l⟩ : Round).produced = .ok (ofPart part))
    (hasks : asks config learner? = true) (hlearner : learner? = some learner)
    (hlearns : Learns engine learner part { s with splitter := sp } l s') :
    Conducted engine inst config p learner? p₀ l₀ (rounds ++ [⟨reduction?, some l⟩]) s' := by
  obtain ⟨answer, hl⟩ := hlearns.lesson
  have hheld : s.learner.holds = Lesson.heldAfter (Round.lessons rounds) := h.books.lessons.holds_eq
  have hholds : l.holds = s'.learner.holds := hlearns.made.1
  -- The call is one on the part, after those in the books.
  have hcalled : Round.called (rounds ++ [⟨reduction?, some l⟩]) =
      part.map (fun _ => l) :: Round.called rounds := by
    rw [Round.called_concat, Round.called?, hproduced]
    cases part <;> rfl
  have hkinds : (part :: s.parts).map Option.isNone =
      (Round.called (rounds ++ [⟨reduction?, some l⟩])).map Option.isNone := by
    rw [hcalled, List.map_cons, List.map_cons, h.books.map_isNone, Option.isNone_map]
  have hpart : (⟨reduction?, some l⟩ : Round).part? inst rounds = some l.part := by
    rw [Round.part?, hproduced, hl]
    cases part with
    | none => exact congrArg some hbegins.top.symm
    | some part => rfl
  refine h.concat hbegins ?_ (h.books.lessons.snoc hlearner hlearns.made) ?_ ?_ ?_
  -- The call changes the holds of the learner on the instance, and the others stay.
  · have hbefore : s.learner.holds.next.onTop (part :: s.parts) =
        (Lesson.heldAfter (Round.lessons rounds)).onTop (Round.called rounds) := by
      rw [Holds.onTop_next, hheld]
      exact Holds.onTop_congr h.books.map_isNone _
    have hafter : s'.learner.holds.onTop (part :: s.parts) =
        (Lesson.heldAfter (Round.lessons (rounds ++ [⟨reduction?, some l⟩]))).onTop
          (Round.called (rounds ++ [⟨reduction?, some l⟩])) := by
      rw [Round.lessons_concat, Option.toList_some, Lesson.heldAfter, List.getLast?_concat,
        ← hholds]
      exact Holds.onTop_congr hkinds _
    have htop : sp.top.rehold (s.learner.holds.next.onTop (part :: s.parts))
        (s'.learner.holds.onTop (part :: s.parts)) =
          inst.held (1 + Round.holdsOnTop (rounds ++ [⟨reduction?, some l⟩])) := by
      rw [hbegins.top, Round.holdsOnTop_concat_none, ← Nat.add_assoc, hbefore, hafter,
        Instance.rehold_held, Nat.add_assoc, Round.holdsOnTop, Round.reductions_concat]
    rw [hlearns.concludes.splitter, ← htop]
    rfl
  -- The part of the call comes first, and the holds on those before it have been settled.
  · have hpreds : sp.top.preds = inst.preds := by
      rw [hbegins.top]
      rfl
    have hfirst : part.map (fun _ => l.kept engine sp.top) =
        (part.map (fun _ => l.unheld engine inst)).map (·.held s'.learner.holds.last) := by
      cases part with
      | none => rfl
      | some part =>
        have hleft : l.left = l.part.held s'.learner.holds.last := by
          rw [Lesson.left, hl]
          rfl
        rw [Lesson.kept_congr engine hpreds, Lesson.kept_eq, hleft]
        rfl
    have hrest : s.learner.holds.settle s'.learner.holds.earlier s.parts =
        s'.learner.holds.earlier.upon (Round.parts engine inst rounds) := by
      rw [h.books.parts, Holds.settle_upon]
    rw [hlearns.concludes.parts, Round.parts, hcalled, List.map_cons, Option.map_map]
    change part.map _ :: s.learner.holds.settle s'.learner.holds.earlier s.parts = _
    rw [hrest]
    exact congrArg (· :: _) hfirst
  · have hbackground : l.background = Round.accumulated engine inst rounds := by
      rw [hl, ← h.candidates]
      rfl
    rw [if_pos hasks, hpart, ← hbackground]
    rfl
  · rintro _ ⟨⟩
    rw [← hheld, ← Holds.onLast_congr hkinds, ← Holds.onLast_congr hkinds, hholds, hl]
    exact ⟨rfl, rfl⟩

/-- **The second half of a round** in the books. -/
theorem Underway.handled {s s' : SplitState π κ} {sp : Splitter π}
    {reduction? : Option Reduction} {lesson? : Option Lesson} {reduced : Reduced}
    (h : Underway engine inst config p learner? p₀ l₀ rounds s)
    (hbegins : Begins inst config p p₀ rounds reduction? sp)
    (hproduced : (⟨reduction?, lesson?⟩ : Round).produced = .ok reduced)
    (hhandles : Handles engine config learner? { s with splitter := sp } reduced lesson? s') :
    Conducted engine inst config p learner? p₀ l₀ (rounds ++ [⟨reduction?, lesson?⟩]) s' := by
  cases hhandles with
  | refuted =>
    refine h.unasked hbegins (fun _ => ?_) s.candidates
    rw [Round.part?, hproduced]
  | @decided model m _ =>
    refine h.unasked hbegins (fun _ => ?_) m
    rw [Round.part?, hproduced]
  | skipped reduced hskip =>
    refine h.unasked hbegins (fun hasks => ?_) s.candidates
    rw [hskip] at hasks
    cases hasks
  | learned hasks hlearner hlearns => exact h.asked hbegins hproduced hasks hlearner hlearns

/-! ### Runs -/

/-- One round of the loop: `none` when nothing remains, and else the answer of the round. -/
def round (engine : Engine) (config : SplitConfig) (p : Preprocessor π)
    (learner? : Option (Learner κ)) : Act (SplitState π κ) (Option (Option String)) :=
  produce config p >>= fun
    | none => pure none
    | some r => some <$> handle engine config learner? r

/-- The loop is one round after the other. -/
theorem loop_eq_round (engine : Engine) (config : SplitConfig) (p : Preprocessor π)
    (learner? : Option (Learner κ)) (fuel : Nat) :
    loop engine config p learner? (fuel + 1) = round engine config p learner? >>= fun
      | none => pure none
      | some (some reason) => pure (some reason)
      | some none => loop engine config p learner? fuel := by
  rw [loop_succ, round, bind_assoc]
  congr
  funext produced
  cases produced with
  | none => rfl
  | some r =>
    dsimp only
    rw [map_eq_pure_bind, bind_assoc]
    congr
    funext answer
    rw [pure_bind]
    cases answer <;> rfl

/-- **The step lemma.** The agenda has been worked through, or a round is conducted, which answers
what it amounts to. -/
theorem exists_round {w : World (SplitState π κ)}
    (h : Underway engine inst config p learner? p₀ l₀ rounds w.1) :
    (∃ log, (round engine config p learner?).runFrom w = (.ok none, w.1, log) ∧
        rounds.map Round.clause? = Splitter.agenda inst config) ∨
      ∃ r s' log, (round engine config p learner?).runFrom w =
          ((r.finding engine inst).map (some ·.answer), s', log) ∧
        Conducted engine inst config p learner? p₀ l₀ (rounds ++ [r]) s' ∧
        ∀ f, r.finding engine inst = .ok f →
          s'.candidates = f.record engine inst (Round.accumulated engine inst rounds) := by
  unfold round
  rcases exists_begins h.books with ⟨log, hrun, hdone⟩ | ⟨reduction?, sp, log, hrun, hbegins⟩
  · refine .inl ⟨log, ?_, hdone⟩
    rw [Act.runFrom_bind_of_ok hrun]
    rfl
  · right
    rw [Act.runFrom_bind, hrun]
    cases hproduced : (⟨reduction?, none⟩ : Round).produced with
    | error e =>
      -- The preprocessor has failed.
      refine ⟨⟨reduction?, none⟩, _, log, ?_,
        h.unasked hbegins (fun _ => ?_) w.1.candidates, ?_⟩
      · rw [Round.finding, hproduced]
        rfl
      · rw [Round.part?, hproduced]
      · intro f hf
        rw [Round.finding, hproduced] at hf
        cases hf
    | ok reduced =>
      obtain ⟨lesson?, s', log', hhandle, hhandles⟩ := exists_handles engine config learner? reduced
        ({ w.1 with splitter := sp }, log)
      have hpreds : sp.top.preds = inst.preds := by
        rw [hbegins.top]
        rfl
      have hfinding : (⟨reduction?, lesson?⟩ : Round).finding engine inst =
          reduced.finding engine sp.top lesson? := by
        rw [Reduced.finding_congr engine hpreds, Round.finding]
        change (⟨reduction?, none⟩ : Round).produced.bind _ = _
        rw [hproduced]
        rfl
      refine ⟨⟨reduction?, lesson?⟩, s', log', ?_,
        h.handled hbegins hproduced hhandles, ?_⟩
      · rw [hfinding]
        change (some <$> handle engine config learner? reduced).runFrom _ = _
        rw [Act.runFrom_map, hhandle]
        dsimp only
        cases reduced.finding engine sp.top lesson? <;> rfl
      · intro f hf
        rw [hfinding] at hf
        rw [hhandles.candidates hf, Finding.record_congr engine hpreds]
        dsimp only
        rw [h.candidates]

/-- How a loop ends after some rounds: the agenda has been worked through, or the last round is the
first one that amounts to a contradiction or to a failure. -/
inductive Ends (engine : Engine) (inst : Instance) (config : SplitConfig) (s : SplitState π κ) :
    List Round → Except Fault (Option String) → Prop
  | finished {rounds : List Round} :
      (∀ r ∈ rounds, r.GoesOn engine inst) →
      rounds.map Round.clause? = Splitter.agenda inst config →
      s.candidates = Round.accumulated engine inst rounds →
      Ends engine inst config s rounds (.ok none)
  | refuted {rounds : List Round} {r : Round} {reason : String} :
      r.finding engine inst = .ok (.unsat reason) →
      Ends engine inst config s (rounds ++ [r]) (.ok (some reason))
  | failed {rounds : List Round} {r : Round} {e : Fault} :
      r.finding engine inst = .error e → Ends engine inst config s (rounds ++ [r]) (.error e)

/-- **The run lemma.** A loop that has fuel for the rest of the agenda conducts rounds until it
ends. -/
theorem exists_rounds (fuel : Nat) {w : World (SplitState π κ)}
    (h : Underway engine inst config p learner? p₀ l₀ rounds w.1)
    (hfuel : (Splitter.agenda inst config).length < rounds.length + fuel) :
    ∃ rounds' answer s' log, (loop engine config p learner? fuel).runFrom w = (answer, s', log) ∧
      Conducted engine inst config p learner? p₀ l₀ rounds' s' ∧
      Ends engine inst config s' rounds' answer := by
  induction fuel generalizing rounds w with
  | zero =>
    -- There are no more rounds than the agenda has items.
    have hlength := h.books.agenda.length_le
    rw [List.length_map] at hlength
    omega
  | succ fuel ih =>
    rw [loop_eq_round, Act.runFrom_bind]
    rcases exists_round h with ⟨log, hrun, hdone⟩ | ⟨r, s', log, hrun, hbooks, hfound⟩
    · rw [hrun]
      exact ⟨rounds, .ok none, w.1, log, rfl, h.books, .finished h.goesOn hdone h.candidates⟩
    · rw [hrun]
      cases hfinding : r.finding engine inst with
      | error e => exact ⟨_, .error e, s', log, rfl, hbooks, .failed hfinding⟩
      | ok f =>
        cases f with
        | unsat reason => exact ⟨_, .ok (some reason), s', log, rfl, hbooks, .refuted hfinding⟩
        | learned model =>
          -- The loop goes on, with one item less on the agenda.
          refine ih (h.next hbooks hfinding (hfound _ hfinding)) ?_
          rw [List.length_append, List.length_singleton]
          omega

/-- There is fuel for the whole agenda. -/
theorem length_agenda (inst : Instance) (config : SplitConfig) (p₀ : π) :
    (Splitter.agenda inst config).length = (Splitter.create inst config p₀).total := by
  unfold Splitter.agenda Splitter.create
  dsimp only
  rw [Splitter.start_eq]
  by_cases hsplits : Splitter.Splits inst config
  · rw [if_pos hsplits, Splitter.progressAfter_of_splits hsplits, List.length_map]
    rfl
  · rw [if_neg hsplits, Splitter.progressAfter_of_not_splits hsplits]
    rfl

/-- The outcome of a run whose loop has given an answer. -/
def outcome (config : SplitConfig) (candidates : Accumulator) :
    Option String → Outcome
  | some reason => .unsat reason
  | none => if config.infer then .model candidates else .noModel

/-- **A whole run.** The rounds that the loop conducts, up to the point where the instance is still
held, and its result. -/
theorem run_conducted (engine : Engine) (inst : Instance) (config : SplitConfig)
    (p : Preprocessor π) (learner? : Option (Learner κ)) (p₀ : π) (l₀ : κ) :
    ∃ rounds answer s log,
      (run engine config p learner?).runFrom (create inst config p₀ l₀, []) =
        (answer.map (outcome config s.candidates), s, log) ∧
      Conducted engine inst config p learner? p₀ l₀ rounds s ∧
      Ends engine inst config s rounds answer := by
  have hstart := underway_create engine inst config p learner? p₀ l₀
  have hfuel : (Splitter.agenda inst config).length <
      ([] : List Round).length + ((Splitter.create inst config p₀).total + 1) := by
    rw [length_agenda inst config p₀, List.length_nil]
    omega
  rw [← startWorld_fst inst config p₀ l₀] at hstart
  obtain ⟨rounds, answer, s, log, hloop, hconducted, hends⟩ := exists_rounds _ hstart hfuel
  refine ⟨rounds, answer, s, log, ?_, hconducted, hends⟩
  rw [runFrom_run_eq, hloop]
  rcases answer with e | _ | reason <;> rfl

/-- The instance can be let go after a run. -/
theorem Conducted.close {w : World (SplitState π κ)}
    (h : Conducted engine inst config p learner? p₀ l₀ rounds w.1) :
    (onSplitter Splitter.close).runFrom w = (.ok (),
      { w.1 with splitter := { w.1.splitter with
        top := inst.held (Round.holdsOnTop rounds), isOpen := false } }, w.2) := by
  have hrelease : w.1.splitter.top.release = .ok (inst.held (Round.holdsOnTop rounds)) := by
    rw [h.top, Instance.release_held]
  have hopen : w.1.splitter.isOpen = true := h.stands.isOpen
  rw [runFrom_onSplitter]
  unfold Splitter.close
  rw [Act.runFrom_bind_of_ok (Act.runFrom_get _)]
  dsimp only
  rw [if_pos hopen, hrelease]
  rfl

/-- **A whole run with its end.** A run that is given a learner, if it needs one, conducts rounds
until it ends, and lets the instance go. -/
theorem solve_conducted (engine : Engine) (inst : Instance) (config : SplitConfig)
    (p : Preprocessor π) {learner? : Option (Learner κ)} (p₀ : π) (l₀ : κ)
    (hgiven : config.infer = true → learner?.isSome = true) :
    ∃ rounds answer s log,
      Horn.solve engine inst config p learner? p₀ l₀ =
        (answer.map (outcome config s.candidates),
          { s with splitter := { s.splitter with
            top := inst.held (Round.holdsOnTop rounds), isOpen := false } }, log) ∧
      Conducted engine inst config p learner? p₀ l₀ rounds s ∧
      Ends engine inst config s rounds answer := by
  obtain ⟨rounds, answer, s, log, hrun, hconducted, hends⟩ :=
    run_conducted engine inst config p learner? p₀ l₀
  -- A run that infers is given a learner, so the guard at the start does not fire.
  have hask : ¬(config.infer && learner?.isNone) = true := by
    intro h
    obtain ⟨hinfer, hnone⟩ := Bool.and_eq_true_iff.1 h
    rw [Option.isNone_iff_eq_none] at hnone
    rw [hnone] at hgiven
    cases hgiven hinfer
  refine ⟨rounds, answer, s, log, ?_, hconducted, hends⟩
  unfold Horn.solve SplitState.solve
  rw [if_neg hask, Act.exec_eq, Act.runFrom_finally', hrun]
  dsimp only
  rw [Conducted.close (w := (s, log)) hconducted]

end SplitState

end Horn
