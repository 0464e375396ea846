import Horn.Proofs.Equivalent
import Horn.Proofs.Split.Standard

/-!
# Simplification in place

If nobody holds a part when the learner returns, its candidate is expanded and simplified in place;
otherwise the raw candidate is merged. This makes no difference to what is found, unless the engine
refuses to rebuild a term that is expanded.

Two runs on one instance are compared, with learners that recite the same answers
(`Learner.reciting`). One goes on holding every part, the other one lets every part go. The states
of the two runs are *twins* (`SplitState.Twins`) as long as they agree on everything but the
records, the parts, the holds, and the form of the fragments, which are equivalent. Each step of
the loop ends alike from twins and leaves twins: producing a part (`produce_twins`), collecting a
candidate (`collect_twins`), learning (`learn_twins`) and handling a part (`handle_twins`). So do
the loop (`loop_twins`) and the whole run (`solve_inPlace`). Only where a candidate is collected may
the second run be refused, and then it is over.

Of the preprocessor it is assumed that it is `Preprocessor.Regular`; the standard one is.
-/

namespace Horn

/-! ### Learners that recite -/

/-- A learner whose answers are fixed, one for each part that it is given. It goes on holding the
parts, or it lets them go. -/
def Learner.reciting (keeps : Bool) : Learner (List (Except Fault Learned)) where
  solve _ _ := do
    let v ← get
    set { v with
      own := v.own.tail
      holds := if keeps then v.holds + 1 else v.holds : Visitor (List (Except Fault Learned)) }
    -- When there is no answer left, the learner fails.
    Act.ofExcept (v.own.headD (.error .outOfRange))

/-- The fragments of an answer are closed and well-sorted terms. -/
def Learned.IsWellSorted : Learned → Prop
  | .candidate model => ∀ e ∈ model, e.2.isWellSorted [] = true
  | .unsat _ => True

/-! ### Regular preprocessors -/

/-- A sub-instance with the given predicates that remembers right expansions only, as a new one
does, or a decision whose partial model consists of formulas. -/
inductive Reduced.Fresh (callable : Callable) (preds : List Predicate) : Reduced → Prop
  | sub {part : Instance} : part.preds = preds → part.Remembers callable part.expansions →
      Fresh callable preds (.sub part)
  | unsat : Fresh callable preds (.trivial none)
  | sat {model : Definitions} : (∀ e ∈ model, e.2.IsFormula) →
      Fresh callable preds (.trivial (some model))

/-- A preprocessor that answers alike whatever has been recorded, and never with the instance that
it was given. -/
structure Preprocessor.Regular {π : Type} (callable : Callable) (p : Preprocessor π)
    (preds : List Predicate) : Prop where
  ignoresLog : ∀ inst? clause isolated, (p.reduce inst? clause isolated).IgnoresLog
  fresh : ∀ {top : Instance} {clause : Int} {isolated : List Nat} {r : Reduced}
    {w w' : World (Visitor π)}, top.preds = preds →
      (p.reduce (some top) clause isolated).runFrom w = (.ok r, w') → r.Fresh callable preds

namespace Instance

variable {inst sub : Instance}

/-- What is derived from an instance has its predicates, and remembers nothing. -/
theorem derive_fresh {name : String} {clauses : List Int}
    (h : inst.derive name clauses = .ok sub) : sub.preds = inst.preds ∧ sub.expansions = [] := by
  refine foldlM_ok (P := fun sub => sub.preds = inst.preds ∧ sub.expansions = []) h ?_
    fun c _ sub sub' hsub hstep => ?_
  · obtain ⟨hp, -, -, he⟩ := foldl_insertPredicate inst.preds (Instance.empty name)
    exact ⟨hp, he⟩
  · -- Adding a clause touches neither.
    obtain ⟨_, -, hadd⟩ := bind_eq_ok.1 hstep
    obtain ⟨_, -, hadd⟩ := bind_eq_ok.1 hadd
    dsimp only at hadd
    split at hadd
    · cases hadd
      exact hsub
    · obtain ⟨_, -, hadd⟩ := bind_eq_ok.1 hadd
      cases hadd
      exact hsub

end Instance

section Standard

variable {κ : Type} (engine : Engine)

theorem ignoresLog_trivialModel (inst : Instance) :
    (trivialModel engine inst : Act κ (Option (Option Definitions))).IgnoresLog := by
  unfold trivialModel
  split
  · exact Act.ignoresLog_pure _
  · exact Act.ignoresLog_pure _
  · refine (Act.ignoresLog_ofExcept _).bind fun c => ?_
    split
    · exact Act.ignoresLog_pure _
    · split
      · exact Act.ignoresLog_throw _
      · split
        · exact (Act.ignoresLog_write _).bind fun _ => Act.ignoresLog_pure _
        · exact (Act.ignoresLog_write _).bind fun _ => Act.ignoresLog_pure _
        · exact Act.ignoresLog_pure _

theorem ignoresLog_reduceClause (inst : Instance) (clause : Int) (isolated : List Nat) :
    (reduceClause engine inst clause isolated : Act κ Reduced).IgnoresLog := by
  unfold reduceClause
  refine (Act.ignoresLog_ofExcept _).bind fun c => ?_
  split
  · exact fun _ _ _ => .failed rfl
  refine (Act.ignoresLog_ofExcept _).bind fun sub => (Act.ignoresLog_write _).bind fun _ =>
    (ignoresLog_trivialModel engine sub).bind fun answer => ?_
  split <;> exact Act.ignoresLog_pure _

/-- **The standard preprocessor** is regular. -/
theorem Preprocessor.regular_standard (callable : Callable) (preds : List Predicate) :
    (Preprocessor.standard engine κ).Regular callable preds := by
  constructor
  case ignoresLog =>
    intro inst? clause isolated
    cases inst? with
    | none => exact Act.ignoresLog_throw _
    | some inst => exact ignoresLog_reduceClause engine inst clause isolated
  case fresh =>
    intro top clause isolated r w w' htop h
    obtain ⟨sub, answer, w₁, w₂, hsub, hanswer, rfl⟩ := reduceClause_ok h
    rcases answer with _ | _ | model
    · -- What is not decided is handed over.
      obtain ⟨hpreds, hmem⟩ := Instance.derive_fresh hsub
      refine .sub (hpreds.trans htop) ?_
      rw [hmem]
      exact List.forall_mem_nil _
    · exact .unsat
    · rw [eq_nil_of_trivialModel hanswer]
      exact .sat (List.forall_mem_nil _)

end Standard

/-- The next part does not depend on the records. -/
theorem Splitter.ignoresLog_advance {π : Type} {p : Preprocessor π} {callable : Callable}
    {preds : List Predicate} (hp : p.Regular callable preds) :
    (Splitter.advance p).IgnoresLog := by
  unfold Splitter.advance
  refine Act.ignoresLog_get.bind fun s => ?_
  split
  · exact Act.ignoresLog_pure _
  · exact (Act.ignoresLog_set _).bind fun _ => Act.ignoresLog_pure _
  · split
    · exact Act.ignoresLog_pure _
    · next clause _ =>
      refine (Act.ignoresLog_set _).bind fun _ => Act.IgnoresLog.bind ?_ fun r =>
        (Act.ignoresLog_modify _).bind fun _ => (Act.ignoresLog_write _).bind fun _ =>
          Act.ignoresLog_pure _
      -- What remains is the call of the preprocessor.
      unfold Splitter.reduce
      refine Act.ignoresLog_get.bind fun s =>
        ((hp.ignoresLog _ _ _).attempt.zoom _ _).bind fun r => ?_
      split
      · exact Act.ignoresLog_pure _
      · exact Act.ignoresLog_throw _

namespace SplitState

variable {π : Type} {engine : Engine} {config : SplitConfig} {p : Preprocessor π}
  {inst : Instance} {p₀ : π}

/-! ### Twins -/

/-- The states of two runs with learners that recite the same answers. The splitters agree as long
as the instance itself has not been handed over. Once it has been, nothing remains, and the
learners may hold it or not. -/
structure Twins (inst : Instance) (config : SplitConfig) (p₀ : π)
    (s s' : SplitState π (List (Except Fault Learned))) : Prop where
  keeps : (Splitter.create inst config p₀).Keeps s.splitter
  keeps' : (Splitter.create inst config p₀).Keeps s'.splitter
  splitter : s'.splitter = s.splitter ∧ none ∉ s.parts ∧ none ∉ s'.parts ∨
    s.splitter.progress = .inactive true ∧ s'.splitter.progress = .inactive true
  answers : s'.learner.own = s.learner.own
  wellSorted : ∀ answer, .ok answer ∈ s.learner.own → answer.IsWellSorted
  candidates : Accumulator.Equivalent inst.preds s.candidates s'.candidates

/-- What is handed over in both runs: the instance itself, after which nothing remains, or a fresh
part. -/
def Ready (callable : Callable) (inst : Instance) (r : Reduced)
    (s s' : SplitState π (List (Except Fault Learned))) : Prop :=
  r = .whole ∧ s.splitter.progress = .inactive true ∧ s'.splitter.progress = .inactive true ∨
    r.Fresh callable inst.preds

section Steps

variable {w w' : World (SplitState π (List (Except Fault Learned)))}

/-- A part that is produced in both runs is ready. -/
theorem ready_of_advances {callable : Callable} (hp : p.Regular callable inst.preds)
    {w w' : World (Splitter π)} {r : Reduced} {s s' : SplitState π (List (Except Fault Learned))}
    (h : (Splitter.create inst config p₀).Keeps w.1) (hadv : Splitter.Advances p w r w')
    (hs : s.splitter = w'.1) (hs' : s'.splitter = w'.1) : Ready callable inst r s s' := by
  cases hadv with
  | whole _ hw =>
    refine .inl ⟨rfl, ?_, ?_⟩
    · rw [hs, hw]
    · rw [hs', hw]
  | isolated _ hpre _ =>
    -- The splitter is open, so that the preprocessor was given the instance.
    have hopen : w.1.isOpen = true := h.isOpen
    have htop : w.1.top.preds = inst.preds := h.preds
    unfold Splitter.Preprocesses Splitter.held? at hpre
    dsimp only at hpre
    rw [if_pos hopen] at hpre
    exact .inr (hp.fresh htop hpre)

/-- **Producing a part** ends alike. -/
theorem produce_twins {callable : Callable} (hp : p.Regular callable inst.preds)
    (h : Twins inst config p₀ w.1 w'.1) :
    Act.Alike (Twins inst config p₀)
      (fun r r' s s' => r' = r ∧ Twins inst config p₀ s s' ∧
        ∀ part ∈ r, Ready callable inst part s s')
      ((produce config p).runFrom w) ((produce config p).runFrom w') := by
  obtain ⟨log, hlog⟩ := runFrom_report config w
  obtain ⟨log', hlog'⟩ := runFrom_report config w'
  unfold produce
  rw [Act.runFrom_bind_of_ok hlog, Act.runFrom_bind_of_ok hlog', runFrom_onSplitter,
    runFrom_onSplitter]
  dsimp only
  rcases h.splitter with ⟨hsame, hnone, hnone'⟩ | ⟨hdone, hdone'⟩
  · rw [hsame]
    have hrun := Splitter.ignoresLog_advance hp w.1.splitter log log'
    have hkeeps := h.keeps.trans (Splitter.keeps_advance p (w.1.splitter, log))
    rcases hadv : (Splitter.advance p).runFrom (w.1.splitter, log) with ⟨r, sp, l⟩
    rw [hadv] at hrun hkeeps
    generalize (Splitter.advance p).runFrom (w.1.splitter, log') = x' at hrun ⊢
    -- Both splitters are the same one afterwards, whether or not they failed.
    have htwins : Twins inst config p₀ { w.1 with splitter := sp } { w'.1 with splitter := sp } :=
      ⟨hkeeps, hkeeps, .inl ⟨rfl, hnone, hnone'⟩, h.answers, h.wellSorted, h.candidates⟩
    cases hrun with
    | @failed _ _ v' hsp =>
      obtain rfl : sp = v'.1 := hsp
      exact .failed htwins
    | @done a _ _ v' hQ =>
      obtain ⟨rfl, hsp⟩ := hQ
      obtain rfl : sp = v'.1 := hsp
      refine .done ⟨rfl, htwins, fun part hpart => ?_⟩
      obtain rfl : a = some part := hpart
      rcases Splitter.advance_ok h.keeps.isOpen hadv with ⟨hend, -⟩ | ⟨r, hr, hadv⟩
      · cases hend
      · obtain rfl := Option.some.inj hr
        exact ready_of_advances hp h.keeps hadv rfl rfl
  · -- Nothing remains, in both runs.
    have hend : ∀ {sp : Splitter π} {log : Log}, sp.progress = .inactive true →
        (Splitter.advance p).runFrom (sp, log) = (.ok none, sp, log) := by
      intro sp log hdone
      unfold Splitter.advance
      rw [Act.runFrom_bind_of_ok (Act.runFrom_get _)]
      dsimp only
      rw [hdone]
      rfl
    rw [hend hdone, hend hdone']
    exact .done ⟨rfl, h, fun part hpart => nomatch hpart⟩

/-- **Recording** equivalent models ends alike. -/
theorem merge_twins (hS : engine.Simplifies) (h : Twins inst config p₀ w.1 w'.1)
    {model model' : Definitions} (hmodel : Definitions.Equivalent inst.preds model model') :
    Act.Alike (Twins inst config p₀) (fun _ _ => Twins inst config p₀)
      ((merge engine model).runFrom w) ((merge engine model').runFrom w') := by
  unfold merge
  rw [Act.runFrom_bind_of_ok (Act.runFrom_get w), Act.runFrom_bind_of_ok (Act.runFrom_get w')]
  have htop : w.1.splitter.top.preds = w'.1.splitter.top.preds :=
    h.keeps.preds.trans h.keeps'.preds.symm
  have hafter : ∀ {m m' : Accumulator}, Accumulator.Equivalent inst.preds m m' →
      Twins inst config p₀ { w.1 with candidates := m } { w'.1 with candidates := m' } :=
    fun hm => ⟨h.keeps, h.keeps', h.splitter, h.answers, h.wellSorted, hm⟩
  exact (Accumulator.merge_alike hS htop hmodel h.candidates).zoom hafter hafter

/-- **Collecting a candidate** ends alike, if one part is held and the other one may be simplified
in place, unless the engine refuses to rebuild a term of the second one. -/
theorem collect_twins (hS : engine.Simplifies) (hfit : inst.FittingDefinitions)
    (h : Twins inst config p₀ w.1 w'.1) {left left' : Instance}
    (hheld : left.isExclusive = false) (hleft : left.preds = inst.preds)
    (hleft' : left'.preds = inst.preds)
    (hmem' : left'.isExclusive = true → left'.Remembers engine.callable left'.expansions)
    {candidate : Definitions} (hw : ∀ e ∈ candidate, e.2.isWellSorted [] = true) :
    Act.AlikeUnless (¬engine.callable.Reapplies) (Twins inst config p₀)
      (fun _ _ => Twins inst config p₀)
      ((collect engine left candidate).runFrom w)
      ((collect engine left' candidate).runFrom w') := by
  have hmem : left.isExclusive = true → left.Remembers engine.callable left.expansions := by
    rw [hheld]
    exact fun hex => nomatch hex
  obtain ⟨_, log, hprep⟩ := runFrom_prepare engine hmem candidate w
  obtain ⟨_, log', hprep'⟩ := runFrom_prepare engine hmem' candidate w'
  have hfrom : left.definitionsFrom candidate = left'.definitionsFrom candidate :=
    Instance.definitionsFrom_congr (hleft.trans hleft'.symm) candidate
  rw [Instance.collected_of_shared engine hheld, hfrom] at hprep
  rw [collect_eq, collect_eq, Act.runFrom_bind, Act.runFrom_bind, hprep, hprep']
  cases hdefs : left'.definitionsFrom candidate with
  | error e =>
    rw [Instance.collected, hdefs]
    exact .inl (.failed h)
  | ok defs =>
    have hfit' : left'.FittingDefinitions := by
      unfold Instance.FittingDefinitions
      rw [hleft']
      exact hfit
    -- An engine that takes every call gives an equivalent model.
    obtain ⟨defs', hcollected, hequiv⟩ :=
      Instance.exists_collected hS.lenient Callable.reapplies_any hfit' hw hdefs
    rw [hleft'] at hequiv
    rcases Instance.collected_unlessRefused engine left' candidate with hsame | hrefused
    · rw [hsame, hcollected]
      -- The two models are equivalent, so that recording them makes no difference.
      refine .inl (Act.Alike.bind (Q := fun _ _ => Twins inst config p₀)
        (merge_twins hS ?_ hequiv) fun hafter => .done hafter)
      exact h
    · rw [hrefused]
      refine .inr ⟨fun hcall => ?_, rfl, w.1, h⟩
      -- A call has been refused that rebuilds an application.
      obtain ⟨_, hcollected', -⟩ := Instance.exists_collected hS hcall hfit' hw hdefs
      rw [hrefused] at hcollected'
      cases hcollected'

section Asks

variable {keeps : Bool} {reduced : Option Instance} {answer : Except Fault Learned}
  {w₁ : World (SplitState π (List (Except Fault Learned)))}

/-- A learner that recites gives the next answer. -/
theorem Asks.reciting (h : Asks (Learner.reciting keeps) reduced w answer w₁) :
    answer = w.1.learner.own.headD (.error .outOfRange) ∧
      w₁.1.learner.own = w.1.learner.own.tail := by
  unfold Asks at h
  cases h
  exact ⟨rfl, rfl⟩

/-- A learner that goes on holding the parts holds the last one. -/
theorem Asks.isExclusive_lastPart (h : Asks (Learner.reciting true) reduced w answer w₁) :
    w₁.1.lastPart.isExclusive = false := by
  have hlast : w₁.1.learner.holds.last = 1 := by
    unfold Asks at h
    cases h
    rfl
  have hle := w₁.1.learner.holds.last_le_onLast (reduced :: w.1.parts)
  rw [h.spec, lastPart_taught, Instance.isExclusive, beq_eq_false_iff_ne]
  change (w.1.given reduced).holders - _ + w₁.1.learner.holds.onLast (reduced :: w.1.parts) ≠ 0
  omega

/-- As long as the instance itself has not been handed over, the learner does not touch it. -/
theorem Asks.splitter_eq {part : Instance}
    (h : Asks (Learner.reciting keeps) (some part) w answer w₁) (hnone : none ∉ w.1.parts) :
    w₁.1.splitter = w.1.splitter ∧ none ∉ w₁.1.parts := by
  have hparts : none ∉ some part :: w.1.parts := by
    simpa using hnone
  rw [h.spec]
  constructor
  · rw [taught, Holds.onTop_eq_zero _ hparts, Holds.onTop_eq_zero _ hparts]
    rfl
  · exact mt Holds.none_mem_settle.1 hparts

end Asks

/-- After the learners have answered, the states are still twins. -/
theorem Twins.ask (h : Twins inst config p₀ w.1 w'.1) {reduced : Option Instance}
    {callable : Callable} (hready : Ready callable inst (ofPart reduced) w.1 w'.1)
    {answer answer' : Except Fault Learned}
    {w₁ w₁' : World (SplitState π (List (Except Fault Learned)))}
    (hask : Asks (Learner.reciting true) reduced w answer w₁)
    (hask' : Asks (Learner.reciting false) reduced w' answer' w₁') :
    Twins inst config p₀ w₁.1 w₁'.1 := by
  obtain ⟨hkeeps, hprog, hcand⟩ := hask.keeps
  obtain ⟨hkeeps', hprog', hcand'⟩ := hask'.keeps
  obtain ⟨-, hown⟩ := hask.reciting
  obtain ⟨-, hown'⟩ := hask'.reciting
  refine ⟨h.keeps.trans hkeeps, h.keeps'.trans hkeeps', ?_, ?_, fun a ha => ?_, ?_⟩
  · cases reduced with
    | none =>
      -- The instance itself was handed over, so nothing remains.
      rcases hready with ⟨-, hdone, hdone'⟩ | hfresh
      · exact .inr ⟨hprog.trans hdone, hprog'.trans hdone'⟩
      · cases hfresh
    | some part =>
      rcases h.splitter with ⟨hsame, hnone, hnone'⟩ | ⟨hdone, hdone'⟩
      · obtain ⟨hsplitter, hparts⟩ := hask.splitter_eq hnone
        obtain ⟨hsplitter', hparts'⟩ := hask'.splitter_eq hnone'
        exact .inl ⟨hsplitter'.trans (hsame.trans hsplitter.symm), hparts, hparts'⟩
      · exact .inr ⟨hprog.trans hdone, hprog'.trans hdone'⟩
  · rw [hown, hown', h.answers]
  · rw [hown] at ha
    exact h.wellSorted a (List.mem_of_mem_tail ha)
  · rw [hcand, hcand']
    exact h.candidates

/-- Storing the parts leaves twins. After the instance itself nothing remains. -/
theorem Twins.stored {s s' : SplitState π (List (Except Fault Learned))}
    (h : Twins inst config p₀ s s') {reduced : Option Instance}
    (hwhole : reduced = none →
      s.splitter.progress = .inactive true ∧ s'.splitter.progress = .inactive true)
    (part part' : Instance) :
    Twins inst config p₀ (s.stored reduced part) (s'.stored reduced part') := by
  refine ⟨h.keeps, h.keeps', ?_, h.answers, h.wellSorted, h.candidates⟩
  cases reduced with
  | none => exact .inr (hwhole rfl)
  | some _ =>
    refine h.splitter.imp_left fun ⟨hsame, hnone, hnone'⟩ => ⟨hsame, ?_, ?_⟩
    · simpa [SplitState.stored] using mt List.mem_of_mem_tail hnone
    · simpa [SplitState.stored] using mt List.mem_of_mem_tail hnone'

/-- A part that is ready has the predicates of the instance. -/
theorem Ready.preds_given {callable : Callable} {reduced : Option Instance}
    {s s' : SplitState π (List (Except Fault Learned))}
    (hready : Ready callable inst (ofPart reduced) s s')
    {t : SplitState π (List (Except Fault Learned))}
    (hkeeps : (Splitter.create inst config p₀).Keeps t.splitter) :
    (t.given reduced).preds = inst.preds := by
  cases reduced with
  | none => exact hkeeps.preds
  | some part =>
    rcases hready with ⟨hwhole, -⟩ | hfresh
    · cases hwhole
    · cases hfresh with
      | sub hpreds _ => exact hpreds

/-- A part that is ready, and not the instance itself, remembers right expansions. -/
theorem Ready.remembers {callable : Callable} {reduced : Option Instance}
    {s s' : SplitState π (List (Except Fault Learned))}
    (hready : Ready callable inst (ofPart reduced) s s') (part : Instance)
    (hpart : reduced = some part) : part.Remembers callable part.expansions := by
  rw [hpart] at hready
  rcases hready with ⟨hwhole, -⟩ | hfresh
  · cases hwhole
  · cases hfresh with
    | sub _ hmem => exact hmem

/-- Drawing the **conclusion** from an answer ends alike, if the first part is held by its learner;
the second one may be exclusive. -/
theorem conclude_twins (hS : engine.Simplifies) (hfit : inst.FittingDefinitions)
    {reduced : Option Instance} (h : Twins inst config p₀ w.1 w'.1)
    (hwhole : reduced = none →
      w.1.splitter.progress = .inactive true ∧ w'.1.splitter.progress = .inactive true)
    (hheld : w.1.lastPart.isExclusive = false) (hpreds : w.1.lastPart.preds = inst.preds)
    (hpreds' : w'.1.lastPart.preds = inst.preds)
    (hmem' : w'.1.lastPart.isExclusive = true →
      w'.1.lastPart.Remembers engine.callable w'.1.lastPart.expansions)
    {answer : Except Fault Learned} (hw : ∀ a, answer = .ok a → a.IsWellSorted) :
    Act.AlikeUnless (¬engine.callable.Reapplies) (Twins inst config p₀)
      (fun r r' s s' => r' = r ∧ Twins inst config p₀ s s')
      ((conclude engine reduced answer).runFrom w)
      ((conclude engine reduced answer).runFrom w') := by
  rcases answer with e | ⟨candidate⟩ | ⟨reason⟩
  · exact .inl (.failed h)
  · unfold conclude
    rw [Act.runFrom_bind_of_ok (Act.runFrom_debugTimed _ _ _),
      Act.runFrom_bind_of_ok (Act.runFrom_debugTimed _ _ _),
      Act.runFrom_bind_of_ok (Act.runFrom_get _), Act.runFrom_bind_of_ok (Act.runFrom_get _)]
    refine Act.AlikeUnless.bind (Q := fun _ _ => Twins inst config p₀)
      (collect_twins hS hfit ?_ hheld hpreds hpreds' hmem' (hw _ rfl))
      fun {part part' w₁ w₁'} hrun hrun' hend => .inl (.done ⟨rfl, hend.stored ?_ part part'⟩)
    · exact h
    -- Collecting has only changed the accumulators.
    · intro hnone
      obtain ⟨_, _, _, hframe⟩ := collect_frame engine w.1.lastPart candidate
        (w.1, w.2 ++ [⟨.debug, .splitting, "learner", true⟩])
      obtain ⟨_, _, _, hframe'⟩ := collect_frame engine w'.1.lastPart candidate
        (w'.1, w'.2 ++ [⟨.debug, .splitting, "learner", true⟩])
      cases hrun.symm.trans hframe
      cases hrun'.symm.trans hframe'
      exact hwhole hnone
  · exact .inl (.done ⟨rfl, h⟩)

/-- **Learning** ends alike, unless the second run is refused. -/
theorem learn_twins (hS : engine.Simplifies) (hfit : inst.FittingDefinitions)
    (h : Twins inst config p₀ w.1 w'.1) (hheld' : w'.1.HoldsTop) {reduced : Option Instance}
    (hready : Ready engine.callable inst (ofPart reduced) w.1 w'.1) :
    Act.AlikeUnless (¬engine.callable.Reapplies) (Twins inst config p₀)
      (fun r r' s s' => r' = r ∧ Twins inst config p₀ s s')
      ((learn engine (Learner.reciting true) reduced).runFrom w)
      ((learn engine (Learner.reciting false) reduced).runFrom w') := by
  obtain ⟨answer, w₁, hask⟩ := exists_asks (Learner.reciting true) reduced w
  obtain ⟨answer', w₁', hask'⟩ := exists_asks (Learner.reciting false) reduced w'
  rw [runFrom_learn hask, runFrom_learn hask']
  obtain ⟨hanswer, -⟩ := hask.reciting
  obtain ⟨hanswer', -⟩ := hask'.reciting
  -- The learners recite the same answer.
  obtain rfl : answer' = answer := by
    rw [hanswer, hanswer', h.answers]
  have hw : ∀ a, answer' = .ok a → a.IsWellSorted := by
    rintro a rfl
    refine h.wellSorted a ?_
    -- It is one of the answers, since without answers the learner fails.
    cases hown : w.1.learner.own with
    | nil =>
      rw [hown] at hanswer
      cases hanswer
    | cons b rest =>
      rw [hown] at hanswer
      exact List.mem_cons.2 (.inl hanswer)
  have hwhole : reduced = none →
      w₁.1.splitter.progress = .inactive true ∧ w₁'.1.splitter.progress = .inactive true := by
    rintro rfl
    rcases hready with ⟨-, hdone, hdone'⟩ | hfresh
    · exact ⟨hask.keeps.2.1.trans hdone, hask'.keeps.2.1.trans hdone'⟩
    · cases hfresh
  exact conclude_twins hS hfit (h.ask hready hask hask') hwhole hask.isExclusive_lastPart
    (hask.preds_lastPart.trans (hready.preds_given h.keeps))
    (hask'.preds_lastPart.trans (hready.preds_given h.keeps'))
    (hask'.remembers hheld' hready.remembers) hw

/-- **Handling a part** ends alike, unless the second run is refused. -/
theorem handle_twins (hS : engine.Simplifies) (hfit : inst.FittingDefinitions)
    (hinfer : config.infer = true) (h : Twins inst config p₀ w.1 w'.1) (hheld' : w'.1.HoldsTop)
    {r : Reduced} (hready : Ready engine.callable inst r w.1 w'.1) :
    Act.AlikeUnless (¬engine.callable.Reapplies) (Twins inst config p₀)
      (fun r r' s s' => r' = r ∧ Twins inst config p₀ s s')
      ((handle engine config (some (Learner.reciting true)) r).runFrom w)
      ((handle engine config (some (Learner.reciting false)) r).runFrom w') := by
  unfold handle handle.part
  rw [hinfer]
  -- The instance, a sub-instance, a contradiction, or a partial model.
  rcases r with _ | part | _ | model
  · have hwhole : Ready engine.callable inst (ofPart none) w.1 w'.1 := hready
    exact learn_twins hS hfit h hheld' hwhole
  · have hpart : Ready engine.callable inst (ofPart (some part)) w.1 w'.1 := hready
    exact learn_twins hS hfit h hheld' hpart
  · exact .inl (.done ⟨rfl, h⟩)
  · have hmodel : ∀ e ∈ model, e.2.IsFormula := by
      rcases hready with ⟨hwhole, -⟩ | hfresh
      · cases hwhole
      · cases hfresh with
        | sat hmodel => exact hmodel
    dsimp only
    rw [Act.runFrom_bind_of_ok (Act.runFrom_info _ _ w),
      Act.runFrom_bind_of_ok (Act.runFrom_info _ _ w')]
    refine .inl (Act.Alike.bind (Q := fun _ _ => Twins inst config p₀)
      (merge_twins hS ?_ (.refl hmodel)) fun hend => .done ⟨rfl, hend⟩)
    exact h

/-! ### Whole runs -/

/-- **The loop** ends alike, unless the second run is refused. -/
theorem loop_twins (hS : engine.Simplifies) (hfit : inst.FittingDefinitions)
    (hinfer : config.infer = true) (hp : p.Regular engine.callable inst.preds) (fuel : Nat)
    (h : Twins inst config p₀ w.1 w'.1) (hheld' : w'.1.HoldsTop) :
    Act.AlikeUnless (¬engine.callable.Reapplies) (Twins inst config p₀)
      (fun r r' s s' => r' = r ∧ Twins inst config p₀ s s')
      ((loop engine config p (some (Learner.reciting true)) fuel).runFrom w)
      ((loop engine config p (some (Learner.reciting false)) fuel).runFrom w') := by
  induction fuel generalizing w w' with
  | zero => exact .inl (.done ⟨rfl, h⟩)
  | succ fuel ih =>
    rw [loop_succ, loop_succ]
    refine Act.AlikeUnless.bind (.inl (produce_twins hp h))
      fun {r r' w₁ w₁'} _ hprod' hend => ?_
    obtain ⟨rfl, htwins, hready⟩ := hend
    cases r' with
    | none => exact .inl (.done ⟨rfl, htwins⟩)
    | some r =>
      have hheld₁' : w₁'.1.HoldsTop := holdsTop_produce hprod' hheld'
      refine (handle_twins hS hfit hinfer htwins hheld₁' (hready r rfl)).bind
        fun {answer answer' w₂ w₂'} _ hhandle' hend => ?_
      obtain ⟨rfl, htwins⟩ := hend
      -- The loop stops at a contradiction in both runs.
      cases answer' with
      | some reason => exact .inl (.done ⟨rfl, htwins⟩)
      | none => exact ih htwins (holdsTop_handle hhandle' hheld₁')

end Steps

end SplitState

/-- Two results of the split loop are of one kind: both are failures, with one fault; both say that
the instance is unsatisfiable, for one reason; or both are accumulators for the same predicates,
with candidate definitions that are equivalent in every structure in which the defined predicates
are as their definitions say. -/
inductive Outcome.Alike (preds : List Predicate) :
    Except Fault Outcome → Except Fault Outcome → Prop
  | failed (e : Fault) : Alike preds (.error e) (.error e)
  | unsat (reason : String) : Alike preds (.ok (.unsat reason)) (.ok (.unsat reason))
  | model {m m' : Accumulator} : m.map (·.1) = m'.map (·.1) →
      (∀ {U : Universe} {M : Structure U}, M.ReadsDefinitions preds → ∀ p,
        M.Sat (m.conjunction p) ↔ M.Sat (m'.conjunction p)) →
      Alike preds (.ok (.model m)) (.ok (.model m'))

/-- **Simplification in place is only an optimisation.** Whether the learner goes on holding the
parts, so that raw candidates are merged, or lets them go, so that candidates are expanded and
simplified in place: with the same answers the results are alike. An engine for which operators do
not take as many arguments as their applications have may refuse to rebuild a term; that ends the
second run. -/
theorem solve_inPlace {π : Type} {engine : Engine} (hS : engine.Simplifies) {inst : Instance}
    (hfit : inst.FittingDefinitions) {config : SplitConfig} (hinfer : config.infer = true)
    {p : Preprocessor π} (hp : p.Regular engine.callable inst.preds) (p₀ : π)
    {answers : List (Except Fault Learned)}
    (hanswers : ∀ answer, .ok answer ∈ answers → answer.IsWellSorted) :
    let run keeps := (solve engine inst config p (some (Learner.reciting keeps)) p₀ answers).1
    Outcome.Alike inst.preds (run true) (run false) ∨
      ¬engine.callable.Reapplies ∧ run false = .error .illSorted := by
  intro run
  have hstart : SplitState.Twins inst config p₀
      (SplitState.startWorld inst config p₀ answers).1
      (SplitState.startWorld inst config p₀ answers).1 := by
    rw [SplitState.startWorld_fst]
    exact ⟨.refl _, .refl _, .inl ⟨rfl, List.not_mem_nil, List.not_mem_nil⟩, rfl, hanswers,
      Accumulator.equivalent_empty⟩
  have hheld := SplitState.holdsTop_startWorld inst config p₀ answers
  have hloop := SplitState.loop_twins hS hfit hinfer hp
    ((Splitter.create inst config p₀).total + 1) hstart hheld
  unfold run solve SplitState.solve
  rw [Option.isNone_some, Option.isNone_some, Bool.and_false, if_neg Bool.false_ne_true,
    if_neg Bool.false_ne_true, Act.exec_eq, Act.exec_eq, Act.runFrom_finally',
    Act.runFrom_finally', SplitState.runFrom_run hinfer, SplitState.runFrom_run hinfer]
  rcases hrun : (SplitState.loop engine config p (some (Learner.reciting true)) _).runFrom _ with
    ⟨r, w⟩
  rcases hrun' : (SplitState.loop engine config p (some (Learner.reciting false)) _).runFrom _ with
    ⟨r', w'⟩
  have hend : w.1.HoldsTop := SplitState.holdsTop_loop hrun hheld
  have hend' : w'.1.HoldsTop := SplitState.holdsTop_loop hrun' hheld
  rw [hrun, hrun'] at hloop
  -- In both runs the splitter can be closed, so that the results are those of the loops.
  rcases hloop with hloop | ⟨hrefuses, rfl, s, htwins⟩
  case inr =>
    obtain ⟨v', hclose'⟩ := SplitState.close_runs hend' htwins.keeps'
    dsimp only at hclose' ⊢
    rw [hclose']
    exact .inr ⟨hrefuses, rfl⟩
  cases hloop with
  | failed htwins =>
    obtain ⟨v, hclose⟩ := SplitState.close_runs hend htwins.keeps
    obtain ⟨v', hclose'⟩ := SplitState.close_runs hend' htwins.keeps'
    dsimp only
    rw [hclose, hclose']
    exact .inl (.failed _)
  | @done _ answer _ _ hdone =>
    obtain ⟨rfl, htwins⟩ := hdone
    obtain ⟨v, hclose⟩ := SplitState.close_runs hend htwins.keeps
    obtain ⟨v', hclose'⟩ := SplitState.close_runs hend' htwins.keeps'
    dsimp only
    rw [hclose, hclose']
    cases answer with
    | some reason => exact .inl (.unsat reason)
    | none => exact .inl (.model htwins.candidates.keys htwins.candidates.conjunction)

/-- The definition `N(x) := x ≤ 0`, and the clauses that neither `P(1)` nor `P(2)` holds. -/
def capped : Instance where
  name := "capped"
  preds := [
    ⟨"N", [.int], [.int], [0], some ⟨[⟨"N!0", .int⟩], .op .le [.const ⟨"N!0", .int⟩, .int 0]⟩⟩,
    ⟨"P", [.int], [.int], [0], none⟩]
  clauses := [
    ⟨0, [], [], [⟨1, [[.int 1]]⟩], none, false, true⟩,
    ⟨1, [], [], [⟨1, [[.int 2]]⟩], none, false, true⟩]
  users := [[], [0, 1]]
  producers := [[], []]
  holders := 0
  expansions := []

/-- The formal parameter of `P`. -/
def parameter : Term := .const ⟨"P!0", .int⟩

/-- The fragments that are recorded when `u` is one, and then `u ∨ P!0 = 5`. -/
def alternatives (u : Term) : List Term := [u, .op .or [u, .op .eq [parameter, .int 5]]]

/-- Two candidates for `P`, with applications of `N`. -/
def cappedAnswers : List (Except Fault Learned) :=
  (alternatives (.fn ⟨"N", [.int], .bool⟩ [parameter])).map fun t => .ok (.candidate [(1, t)])

theorem isWellSorted_cappedAnswers (answer : Learned) (h : .ok answer ∈ cappedAnswers) :
    answer.IsWellSorted := by
  obtain ⟨t, ht, hanswer⟩ := List.mem_map.1 h
  cases hanswer
  have hall : ∀ t ∈ alternatives (.fn ⟨"N", [.int], .bool⟩ [parameter]),
      t.isWellSorted [] = true := by decide
  exact List.forall_mem_singleton.2 (hall t ht)

/-- The result of a run on the two clauses with these answers. -/
def cappedRun (keeps : Bool) : Except Fault Outcome :=
  (solve Engine.literal capped SplitConfig.default (Preprocessor.standard Engine.literal Unit)
    (some (Learner.reciting keeps)) () cappedAnswers).1

/-- The accumulator that a run ends with. -/
def accumulated? : Except Fault Outcome → Option Accumulator
  | .ok (.model m) => some m
  | _ => none

/-- The fragments that a run ends with: the raw ones if the learner holds the parts, and otherwise
their expansions. -/
theorem accumulated?_cappedRun (keeps : Bool) : accumulated? (cappedRun keeps) =
    some [(1, alternatives (if keeps then .fn ⟨"N", [.int], .bool⟩ [parameter]
      else .op .le [parameter, .int 0]))] := by
  unfold cappedRun solve SplitState.create Splitter.create
  rw [Splitter.start_of_pairwise rfl (by decide) (by decide)]
  cases keeps <;> decide +kernel

/-- The two runs are alike, though their fragments differ. -/
theorem solve_inPlace_capped :
    Outcome.Alike capped.preds (cappedRun true) (cappedRun false) ∧
      accumulated? (cappedRun true) ≠ accumulated? (cappedRun false) ∧
      (accumulated? (cappedRun false)).isSome := by
  refine ⟨?_, ?_, ?_⟩
  · have hruns : Outcome.Alike capped.preds (cappedRun true) (cappedRun false) ∨
        ¬Engine.literal.callable.Reapplies ∧ cappedRun false = .error .illSorted :=
      solve_inPlace Engine.simplifies_literal (by decide) rfl
        (Preprocessor.regular_standard Engine.literal .any capped.preds) ()
        isWellSorted_cappedAnswers
    exact hruns.resolve_right fun h => h.1 Callable.reapplies_any
  · rw [accumulated?_cappedRun, accumulated?_cappedRun]
    decide
  · rw [accumulated?_cappedRun]
    rfl

end Horn
