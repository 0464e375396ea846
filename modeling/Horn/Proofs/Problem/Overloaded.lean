import Horn.Proofs.CommandLine.Foreseen
import Horn.Proofs.Problem.Raw

/-!
# Scripts that overload a name

Predicates are entered by their symbols, and no two of them may have the same name. A script may
well use one name with two signatures. Then the second predicate is refused, also one that is hidden
in a side condition, and this is the only fault of loading that the command line does not foresee.

The formulas of an assertion are looked at one after the other, and so are the assertions. Hence the
name has to be the first offence: `Overloads` says this of the formulas of one assertion, and
`Overloaded` of a list of assertions. `unforeseen_ofScript` and `unforeseen_ofFile` say that
nothing else is unforeseen; in particular, a clause can always be added once its formulas have been
classified (`exists_addClause`).
-/

namespace Horn

/-! ### Predicates -/

namespace Predicate

/-- The positions of the arguments themselves pass the check; here of those that follow some others
in the signature. -/
theorem checkPositions_range' (name : String) (before rest : List TermSort) :
    checkPositions name (before ++ rest) before.length rest
      ((List.range' before.length rest.length).map Int.ofNat) =
        .ok (List.range' before.length rest.length) := by
  induction rest generalizing before with
  | nil => rfl
  | cons s rest ih =>
    -- The induction hypothesis is about the arguments behind `s`, which follow one argument more.
    have hrest := ih (before ++ [s])
    rw [List.append_assoc, List.singleton_append, List.length_append, List.length_singleton]
      at hrest
    have hrange : ¬(Int.ofNat before.length < 0 ∨
        ((before ++ s :: rest).length : Int) ≤ Int.ofNat before.length) := by
      rw [List.length_append, List.length_cons, Int.ofNat_eq_natCast]
      omega
    have hsort : (before ++ s :: rest)[(Int.ofNat before.length).toNat]? = some s := by
      rw [Int.ofNat_eq_natCast, Int.toNat_natCast, List.getElem?_append_right (Nat.le_refl _),
        Nat.sub_self]
      rfl
    rw [List.length_cons, List.range'_succ, List.map_cons, checkPositions, if_neg hrange,
      if_neg (not_not.2 hsort), hrest]
    rfl

/-- Without a position map a signature is accepted. -/
theorem exists_make (name : String) (sorts : List TermSort) :
    ∃ q, make name sorts none none = .ok q := by
  have hcheck := checkPositions_range' name [] sorts
  rw [List.length_nil, List.nil_append, ← List.range_eq_range'] at hcheck
  refine ⟨⟨name, sorts, sorts, List.range sorts.length, none⟩, ?_⟩
  unfold make
  dsimp only [Option.getD_none]
  rw [if_pos rfl]
  change (if ((List.range sorts.length).map Int.ofNat).length ≠ sorts.length then _ else _) = _
  rw [if_neg (by simp)]
  change (checkPositions name sorts 0 sorts _).bind _ = _
  rw [hcheck]
  rfl

end Predicate

/-- A symbol has the name of a predicate of the instance, but is the symbol of none. -/
def Instance.Clashes (inst : Instance) (f : Symbol) : Prop :=
  inst.predOf? f = none ∧ ∃ q ∈ inst.preds, q.name = f.name

namespace Problem

variable {inst : Instance} {vars : List Constant} {n : Nat}

/-- **Predicates.** The predicate of a symbol is unforeseen if the name of the symbol is taken. -/
theorem unforeseen_predicate {f : Symbol} :
    Unforeseen (predicate inst f) ↔ inst.Clashes f := by
  unfold predicate Instance.Clashes
  cases inst.predOf? f with
  | some p => simp
  | none =>
    -- The symbol has no predicate yet, so only another one of the same name can be in the way.
    dsimp only
    rw [unforeseen_map, Instance.addPredicate, eq_self, true_and]
    split
    · next htaken =>
      obtain ⟨q, hq, hname⟩ := List.any_eq_true.1 htaken
      exact iff_of_true ⟨_, rfl, rfl⟩ ⟨q, hq, beq_iff_eq.1 hname⟩
    · next hnew =>
      obtain ⟨p, hp⟩ := Predicate.exists_make f.name f.domain
      rw [hp]
      refine iff_of_false (not_unforeseen_of_ok rfl) ?_
      rintro ⟨q, hq, hname⟩
      exact hnew (List.any_eq_true.2 ⟨q, hq, beq_iff_eq.2 hname⟩)

/-! ### Formulas -/

/-- What offends in a side condition is foreseen, unless it is a predicate whose name is taken. -/
theorem unforeseen_checkCondition {t : Term} : Unforeseen (checkCondition vars n inst t) ↔
    ∃ f, hidden vars t = some (.predicate f) ∧ inst.Clashes f := by
  unfold checkCondition
  split
  · next h => simp [h]
  · next h => simp [h, Fault.isForeseen]
  · next f h =>
    -- The predicate is looked up, and if that succeeds, the formula is refused.
    have hrefused : ¬Unforeseen (throw (Fault.hiddenPredicate n (headName t)) :
        Except Fault Unit) := by
      change ¬Unforeseen (.error _)
      simp [Fault.isForeseen]
    rw [unforeseen_bind_left fun _ _ => hrefused, unforeseen_predicate, h]
    simp

/-- **One formula** is unforeseen if the first predicate in it has a name that is taken. -/
theorem unforeseen_classify {t : Term} : Unforeseen (classify vars n inst t) ↔
    ∃ f, hidden vars t = some (.predicate f) ∧ inst.Clashes f := by
  have hcondition : Unforeseen (do
      checkCondition vars n inst t
      pure (inst, Part.condition t) : Except Fault (Instance × Part)) ↔
        ∃ f, hidden vars t = some (.predicate f) ∧ inst.Clashes f := by
    rw [unforeseen_bind_left fun _ _ => (unforeseen_pure _).1, unforeseen_checkCondition]
  unfold classify
  dsimp only
  split
  · next f args =>
    split
    · next hf =>
      -- An application of a predicate is the first one in itself.
      have hfirst : hidden vars (.fn f args) = some (.predicate f) := by rw [hidden, if_pos hf]
      rw [unforeseen_bind_left fun _ _ => (unforeseen_pure _).1, unforeseen_predicate, hfirst]
      simp
    · exact hcondition
  · exact hcondition

/-- The first predicate in the first formula of a list that is refused has a name that is taken. -/
inductive Overloads (vars : List Constant) (n : Nat) : Instance → List Term → Prop
  | clash {inst : Instance} {f : Symbol} {t : Term} {ts : List Term} :
      hidden vars t = some (.predicate f) → inst.Clashes f → Overloads vars n inst (t :: ts)
  | later {inst inst' : Instance} {t : Term} {part : Part} {ts : List Term} :
      classify vars n inst t = .ok (inst', part) → Overloads vars n inst' ts →
      Overloads vars n inst (t :: ts)

theorem overloads_cons {t : Term} {ts : List Term} : Overloads vars n inst (t :: ts) ↔
    Unforeseen (classify vars n inst t) ∨
      ∃ r, classify vars n inst t = .ok r ∧ Overloads vars n r.1 ts := by
  rw [unforeseen_classify]
  constructor
  · intro h
    cases h with
    | clash hf hclash => exact .inl ⟨_, hf, hclash⟩
    | later ht h => exact .inr ⟨_, ht, h⟩
  · rintro (⟨f, hf, hclash⟩ | ⟨r, ht, h⟩)
    · exact .clash hf hclash
    · exact .later ht h

theorem not_overloads_nil : ¬Overloads vars n inst [] := by
  intro h
  cases h

/-- **Several formulas.** -/
theorem unforeseen_classifyAll {ts : List Term} :
    Unforeseen (classifyAll vars n inst ts) ↔ Overloads vars n inst ts := by
  induction ts generalizing inst with
  | nil => exact iff_of_false (not_unforeseen_of_ok rfl) not_overloads_nil
  | cons t ts ih =>
    rw [classifyAll, overloads_cons, unforeseen_bind]
    refine or_congr_right (exists_congr fun r => and_congr_right fun _ => ?_)
    rw [unforeseen_bind_left fun _ _ => (unforeseen_pure _).1, ih]

/-- Formulas that are followed by others. -/
theorem overloads_append {ts us : List Term} : Overloads vars n inst (ts ++ us) ↔
    Overloads vars n inst ts ∨
      ∃ r, classifyAll vars n inst ts = .ok r ∧ Overloads vars n r.1 us := by
  induction ts generalizing inst with
  | nil =>
    rw [List.nil_append, or_iff_right not_overloads_nil]
    constructor
    · exact fun h => ⟨_, rfl, h⟩
    · rintro ⟨r, hr, h⟩
      cases hr
      exact h
  | cons t ts ih =>
    rw [List.cons_append, overloads_cons, overloads_cons]
    simp only [ih, classifyAll, bind_eq_ok]
    -- A fault is raised at `t`, later on among `ts`, or behind them, with the table that they
    -- leave.
    constructor
    · rintro (h | ⟨r, hr, h | ⟨r', hr', h⟩⟩)
      · exact .inl (.inl h)
      · exact .inl (.inr ⟨r, hr, h⟩)
      · exact .inr ⟨_, ⟨r, hr, r', hr', rfl⟩, h⟩
    · rintro ((h | ⟨r, hr, h⟩) | ⟨_, ⟨r, hr, r', hr', hout⟩, h⟩)
      · exact .inl h
      · exact .inr ⟨r, hr, .inl h⟩
      · cases hout
        exact .inr ⟨r, hr, .inr ⟨r', hr', h⟩⟩

/-! ### Assertions -/

/-- The formulas of a matrix that are looked at: the conjuncts of its body, and its head unless that
is `false`. -/
def units (m : Term) : List Term :=
  conjuncts (sides m).1 ++ if (sides m).2.isFalsum then [] else [(sides m).2]

/-- A clause whose applications take as many arguments as their predicates can be added. -/
theorem exists_addClause {spec : ClauseSpec}
    (happs : ∀ app ∈ spec.apps, ∃ a : Nat × List Term, app = ((a.1 : Int), a.2) ∧ inst.Takes a)
    (hconclusion : ∀ app ∈ spec.conclusion,
      ∃ a : Nat × List Term, app = ((a.1 : Int), a.2) ∧ inst.Takes a) :
    ∃ inst', inst.addClause spec = .ok inst' := by
  -- The applications on the left are checked first, then the conclusion.
  obtain ⟨apps, hchecked⟩ : ∃ apps, spec.apps.mapM inst.checkApp = .ok apps := by
    refine exists_mapM_eq_ok fun app happ => ?_
    obtain ⟨a, rfl, ha⟩ := happs app happ
    exact ⟨a, Instance.checkApp_eq_ok.2 ⟨rfl, ha⟩⟩
  obtain ⟨hgiven, htakes⟩ := Instance.mapM_checkApp_eq_ok.1 hchecked
  cases hc : spec.conclusion with
  | none => exact ⟨_, Instance.addClause_eq_ok.2 ⟨apps, none, hgiven, hc, htakes, nofun, rfl⟩⟩
  | some app =>
    obtain ⟨a, rfl, ha⟩ := hconclusion app hc
    refine ⟨_, Instance.addClause_eq_ok.2 ⟨apps, some a, hgiven, hc, htakes, ?_, rfl⟩⟩
    rintro _ ⟨⟩
    exact ha

/-- What has been classified in a scoped assertion makes a clause that can be added. -/
theorem exists_addClause_of_classified {ts : List Term} {parts : List Part}
    (hparts : List.Forall₂ (Classified vars inst.preds) ts parts) (hts : ∀ t ∈ ts, t.Scoped [])
    (terms : List Term) (conclusion : Option (Nat × List Term))
    (hconclusion : ∀ a ∈ conclusion, inst.Takes a) :
    ∃ inst', inst.addClause ⟨vars, terms, apps parts,
      conclusion.map fun a => ((a.1 : Int), a.2), false, true⟩ = .ok inst' := by
  refine exists_addClause (fun app happ => ?_) fun app happ => ?_
  · obtain ⟨part, hpart, happ⟩ := List.mem_filterMap.1 happ
    cases part with
    | condition t => cases happ
    | app p args =>
      cases happ
      obtain ⟨t, ht, hclassified⟩ := (exists_of_forall₂ hparts).2 _ hpart
      exact ⟨(p, args), rfl, (Classified.fits (a := (p, args)) hclassified (hts t ht)).takes⟩
  · obtain ⟨a, ha, rfl⟩ := Option.mem_map.1 happ
    exact ⟨a, rfl, hconclusion a ha⟩

/-- An existential quantifier is foreseen. -/
theorem raises_matrix (t : Term) : Raises (·.isForeseen = true) (matrix t) := by
  unfold matrix
  dsimp only
  split
  · exact raises_error rfl
  · exact raises_ok _

/-- **One assertion** is unforeseen if one of its formulas is. -/
theorem unforeseen_addAssertion {t : Term} (ht : t.Scoped []) :
    Unforeseen (addAssertion inst n t) ↔
      ∃ vars m, matrix t = .ok (vars, m) ∧ Overloads vars n inst (units m) := by
  unfold addAssertion
  rw [unforeseen_bind, or_iff_right (raises_matrix t).not_unforeseen, Prod.exists]
  refine exists_congr fun vars => exists_congr fun m => and_congr_right fun hm => ?_
  obtain ⟨hbody, hhead⟩ := sides_scoped (matrix_scoped hm ht)
  dsimp only
  rw [unforeseen_bind, unforeseen_classifyAll, units, overloads_append]
  refine or_congr_right (exists_congr fun r => and_congr_right fun hr => ?_)
  obtain ⟨inst₁, parts⟩ := r
  obtain ⟨-, hparts⟩ := classifyAll_ok hr
  have hscoped := conjuncts_scoped hbody
  dsimp only
  -- The left side is classified, and perhaps the head; the clause made of them can always be added.
  split
  · obtain ⟨inst', hadd⟩ := exists_addClause_of_classified hparts hscoped
      (conditions parts) none (by simp)
    exact iff_of_false (not_unforeseen_of_ok hadd) not_overloads_nil
  · rw [unforeseen_bind, overloads_cons]
    refine or_congr_right (exists_congr fun r => and_congr_right fun hr => ?_)
    obtain ⟨inst₂, part⟩ := r
    obtain ⟨hgrows, hpart⟩ := classify_ok hr
    have hparts' := hparts.imp fun _ _ hu => hu.mono hgrows.preds
    refine iff_of_false ?_ not_overloads_nil
    cases part with
    | app p args =>
      have htakes : inst₂.Takes (p, args) := (Classified.fits (a := (p, args)) hpart hhead).takes
      obtain ⟨inst', hadd⟩ := exists_addClause_of_classified hparts' hscoped
        (conditions parts) (some (p, args)) (by simpa using htakes)
      exact not_unforeseen_of_ok hadd
    -- A head that is a condition goes to the left, negated.
    | condition u =>
      obtain ⟨inst', hadd⟩ := exists_addClause_of_classified hparts' hscoped
        (conditions parts ++ [u.neg]) none (by simp)
      exact not_unforeseen_of_ok hadd

/-- The first assertion of a list that is refused overloads a name. The assertions are numbered. -/
inductive Overloaded : Nat → Instance → List Term → Prop
  | clash {n : Nat} {inst : Instance} {vars : List Constant} {t m : Term} {ts : List Term} :
      matrix t = .ok (vars, m) → Overloads vars n inst (units m) → Overloaded n inst (t :: ts)
  | later {n : Nat} {inst inst' : Instance} {t : Term} {ts : List Term} :
      addAssertion inst n t = .ok inst' → Overloaded (n + 1) inst' ts → Overloaded n inst (t :: ts)

/-- **A list of assertions** is unforeseen if its first offence is a name that is overloaded. -/
theorem unforeseen_ofAssertions {name : String} {ts : List Term} (hts : ∀ t ∈ ts, t.Scoped []) :
    Unforeseen (ofAssertions name ts) ↔ Overloaded 0 (.empty name) ts := by
  -- Generalised over the assertions that have been read already.
  have hrun : ∀ (ts : List Term) (n : Nat) (inst : Instance), (∀ t ∈ ts, t.Scoped []) →
      (Unforeseen ((ts.zipIdx n).foldlM (fun inst b => addAssertion inst b.2 b.1) inst) ↔
        Overloaded n inst ts) := by
    intro ts
    induction ts with
    | nil =>
      intro n inst _
      refine iff_of_false (not_unforeseen_of_ok rfl) ?_
      intro h
      cases h
    | cons t ts ih =>
      intro n inst hts
      rw [List.forall_mem_cons] at hts
      rw [List.zipIdx_cons, List.foldlM_cons, unforeseen_bind, unforeseen_addAssertion hts.1]
      simp only [ih _ _ hts.2]
      constructor
      · rintro (⟨vars, m, hm, h⟩ | ⟨inst', ht, h⟩)
        · exact .clash hm h
        · exact .later ht h
      · intro h
        cases h with
        | clash hm h => exact .inl ⟨_, _, hm, h⟩
        | later ht h => exact .inr ⟨_, ht, h⟩
  exact hrun ts 0 _ hts

/-! ### Files -/

/-- What is not foreseen in a problem file: bytes that are not in UTF-8, or a script that overloads
a name. -/
inductive Spoils (read : Smt.Reader) (files : Files) (path : String) : Prop
  | garbled : files.Garbled path → Spoils read files path
  | overloaded {text : String} {ts : List Term} : files.readText path = .ok text →
      read text = some ts → Overloaded 0 (.empty (Path.stem path)) ts → Spoils read files path

variable {read : Smt.Reader}

/-- **Scripts.** A text that is no script is foreseen. -/
theorem unforeseen_ofScript (hread : read.IsScoped) {name text : String} :
    Unforeseen (ofScript name text read) ↔
      ∃ ts, read text = some ts ∧ Overloaded 0 (.empty name) ts := by
  unfold ofScript
  cases hts : read text with
  | none => simp [Fault.isForeseen]
  | some ts =>
    simp only [Option.some.injEq, exists_eq_left']
    exact unforeseen_ofAssertions (hread hts)

/-- The problem in a file. -/
def ofFile (read : Smt.Reader) (files : Files) (path : String) : Except Fault Instance :=
  files.readText path >>= fun text => ofScript (Path.stem path) text read

/-- **Problem files.** -/
theorem unforeseen_ofFile (hread : read.IsScoped) {files : Files} {path : String} :
    Unforeseen (ofFile read files path) ↔ Spoils read files path := by
  unfold ofFile
  simp only [unforeseen_bind, Files.unforeseen_readText, unforeseen_ofScript hread]
  constructor
  · rintro (h | ⟨text, htext, ts, hts, h⟩)
    · exact .garbled h
    · exact .overloaded htext hts h
  · rintro (h | ⟨htext, hts, h⟩)
    · exact .inl h
    · exact .inr ⟨_, htext, _, hts, h⟩

end Problem

end Horn
