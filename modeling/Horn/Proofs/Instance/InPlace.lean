import Horn.Proofs.Instance.Built

/-!
# Adding to an instance store by store

A call that adds something to an instance writes to its tables one after the other, and it may fail
after it has written something. `InPlace.addPredicate` and `InPlace.addClause` are the two calls
with each of their stores: the clause table and the two tables of its index are written separately,
the latter entry by entry, and an entry that is not there is a fault.

`runFrom_addPredicate` and `runFrom_addClause` say that the stores add up to the new instance, and
that all that can fail is done before the first of them. For a clause this needs the invariant,
since the entries of the index have to be there.
-/

namespace Horn
namespace Instance

variable {inst : Instance}

namespace InPlace

/-- Appends an index to the entry of a predicate, which has to be there. -/
def note (index : Nat) (table : List (List Nat)) (p : Nat) : Except Fault (List (List Nat)) :=
  if p < table.length then .ok (table.modify p (· ++ [index])) else .error .noEntry

/-- Appends an index to the entries of some predicates, one after the other. -/
def noteAll (index : Nat) (ps : List Nat) : Act (List (List Nat)) Unit :=
  ps.forM fun p => do set (← Act.ofExcept (note index (← get) p))

/-- Adds a predicate, with empty entries in the index. -/
def addPredicate (name : String) (sorts : List TermSort) (original : Option (List TermSort))
    (positions : Option (List Int)) : Act Instance Unit := do
  if (← get).preds.any (·.name == name) then throw (Fault.predicateTwice name)
  let q ← Act.ofExcept (Predicate.make name sorts original positions)
  modify fun inst => { inst with preds := inst.preds ++ [q] }
  modify fun inst => { inst with users := inst.users ++ [[]] }
  modify fun inst => { inst with producers := inst.producers ++ [[]] }

/-- Checks the applications of a list one after the other, and groups them. -/
def collect : List (Int × List Term) → List Uses → Act Instance (List Uses)
  | [], us => pure us
  | app :: apps, us => do
    let a ← Act.ofExcept ((← get).checkApp app)
    collect apps (Uses.insert a.1 a.2 us)

/-- Checks a conclusion, if there is one. -/
def checkConclusion (inst : Instance) (conclusion : Option (Int × List Term)) :
    Except Fault (Option (Nat × List Term)) :=
  match conclusion with
  | none => .ok none
  | some app => (inst.checkApp app).map some

/-- Adds a clause, and enters it into the index. -/
def addClause (spec : ClauseSpec) : Act Instance Unit := do
  let uses ← collect spec.apps []
  let conclusion ← Act.ofExcept (checkConclusion (← get) spec.conclusion)
  let index := (← get).clauses.length
  modify fun inst => { inst with clauses := inst.clauses ++
    [⟨index, spec.vars, spec.terms, uses, conclusion, spec.fromUnrolling, spec.strict⟩] }
  Act.zoom (·.users) (fun inst table => { inst with users := table })
    (noteAll index (uses.map (·.pred)))
  Act.zoom (·.producers) (fun inst table => { inst with producers := table })
    (noteAll index (conclusion.toList.map (·.1)))

/-- The outcome of a call that changes everything or nothing. -/
def atomically (r : Except Fault Instance) (w : World Instance) :
    Except Fault Unit × World Instance :=
  match r with
  | .ok inst => (.ok (), inst, w.2)
  | .error e => (.error e, w)

/-! ### Stores that add up -/

/-- One entry, and then the others. -/
theorem noteIndex_modify {table : List (List Nat)} {p : Nat} {ps : List Nat} (hp : p ∉ ps)
    (index : Nat) : noteIndex (table.modify p (· ++ [index])) ps index =
      noteIndex table (p :: ps) index := by
  refine List.ext_getElem (by simp [noteIndex]) fun i hi hi' => ?_
  simp only [noteIndex, List.getElem_map, List.getElem_zipIdx, List.getElem_modify, zero_add]
  by_cases hip : p = i
  · subst hip
    simp [hp]
  · simp [hip, Ne.symm hip]

/-- Entries that are there are all written. -/
theorem runFrom_noteAll {table : List (List Nat)} {ps : List Nat} (index : Nat) (log : Log)
    (hnodup : ps.Nodup) (hlt : ∀ p ∈ ps, p < table.length) :
    (noteAll index ps).runFrom (table, log) = (.ok (), noteIndex table ps index, log) := by
  induction ps generalizing table with
  | nil => simp [noteAll, noteIndex]
  | cons p ps ih =>
    rw [List.nodup_cons] at hnodup
    rw [List.forall_mem_cons] at hlt
    have hlt' : ∀ q ∈ ps, q < (table.modify p (· ++ [index])).length := by
      rw [List.length_modify]
      exact hlt.2
    -- The index is written at one place, which is there.
    have hnote : (do set (← Act.ofExcept (note index (← get) p)) :
        Act (List (List Nat)) Unit).runFrom (table, log) =
          (.ok (), table.modify p (· ++ [index]), log) := by
      simp [Act.runFrom_bind, note, hlt.1]
    rw [noteAll, List.forM_eq_forM, List.forM_cons, Act.runFrom_bind_of_ok hnote,
      ← noteIndex_modify hnodup.1]
    exact ih hnodup.2 hlt'

/-- **Adding a predicate** writes everything or nothing. -/
theorem runFrom_addPredicate (name : String) (sorts : List TermSort)
    (original : Option (List TermSort)) (positions : Option (List Int)) (inst : Instance)
    (log : Log) : (addPredicate name sorts original positions).runFrom (inst, log) =
      atomically (inst.addPredicate name sorts original positions) (inst, log) := by
  unfold addPredicate Instance.addPredicate
  rw [Act.runFrom_bind_of_ok (Act.runFrom_get _)]
  dsimp only
  split
  · rfl
  · cases hmake : Predicate.make name sorts original positions with
    | error e => simp [Act.runFrom_bind, atomically]
    | ok q => simp [Act.runFrom_bind, atomically, Instance.insertPredicate]

/-- The applications are checked and grouped at once. -/
theorem runFrom_collect (apps : List (Int × List Term)) (us : List Uses) (w : World Instance) :
    (collect apps us).runFrom w =
      ((apps.mapM w.1.checkApp).map fun as =>
        as.foldl (fun us a => Uses.insert a.1 a.2 us) us, w) := by
  induction apps generalizing us with
  | nil => rfl
  | cons app apps ih =>
    rw [collect, Act.runFrom_bind_of_ok (Act.runFrom_get w), Act.runFrom_bind,
      Act.runFrom_ofExcept, List.mapM_cons]
    cases w.1.checkApp app with
    | error e => rfl
    | ok a =>
      dsimp only
      rw [ih]
      cases apps.mapM w.1.checkApp <;> rfl

/-- The index has an entry for each predicate. -/
theorem length_of_indexed (h : inst.Indexed) :
    inst.users.length = inst.preds.length ∧ inst.producers.length = inst.preds.length := by
  rw [h.users, h.producers]
  simp [indexOf]

theorem lt_of_takes {a : Nat × List Term} (h : inst.Takes a) : a.1 < inst.preds.length := by
  obtain ⟨q, hq, -⟩ := h
  exact (List.getElem?_eq_some_iff.1 hq).1

/-- What is concluded has passed the check. -/
theorem takes_of_checkConclusion {given : Option (Int × List Term)}
    {conclusion : Option (Nat × List Term)} (h : checkConclusion inst given = .ok conclusion) :
    ∀ a ∈ conclusion, inst.Takes a := by
  cases given with
  | none =>
    cases h
    nofun
  | some app =>
    rw [checkConclusion] at h
    cases happ : inst.checkApp app with
    | error e =>
      rw [happ] at h
      cases h
    | ok a =>
      rw [happ] at h
      cases h
      rintro _ ⟨⟩
      exact (checkApp_eq_ok.1 happ).2

/-- **Adding a clause** writes everything or nothing: when all applications have passed the check,
the entries of the index are there. -/
theorem runFrom_addClause (h : inst.Indexed) (spec : ClauseSpec) (log : Log) :
    (addClause spec).runFrom (inst, log) = atomically (inst.addClause spec) (inst, log) := by
  obtain ⟨husers, hproducers⟩ := length_of_indexed h
  -- The function first checks everything and only then enters the clause.
  have hfunction : inst.addClause spec = (spec.apps.mapM inst.checkApp).bind fun apps =>
      (checkConclusion inst spec.conclusion).map fun conclusion => inst.insertClause
        ⟨inst.clauses.length, spec.vars, spec.terms, Uses.group apps, conclusion,
          spec.fromUnrolling, spec.strict⟩ := by
    unfold Instance.addClause checkConclusion
    congr
    funext apps
    cases spec.conclusion with
    | none => rfl
    | some app =>
      dsimp only
      cases inst.checkApp app <;> rfl
  rw [hfunction, addClause, Act.runFrom_bind, runFrom_collect]
  cases happs : spec.apps.mapM inst.checkApp with
  | error e => rfl
  | ok apps =>
    dsimp only [Except.map, ok_bind]
    rw [Act.runFrom_bind_of_ok (Act.runFrom_get _), Act.runFrom_bind, Act.runFrom_ofExcept]
    cases hconclusion : checkConclusion inst spec.conclusion with
    | error e => rfl
    -- From here on nothing can fail: every handle is one of a predicate with an entry in the index.
    | ok conclusion =>
      have hgroup : apps.foldl (fun us a => Uses.insert a.1 a.2 us) [] = Uses.group apps := rfl
      have hused : ∀ p ∈ (Uses.group apps).map (·.pred), p < inst.users.length := by
        intro p hp
        rw [Uses.preds_group, List.mem_eraseDups] at hp
        obtain ⟨a, ha, rfl⟩ := List.mem_map.1 hp
        exact husers ▸ lt_of_takes ((mapM_checkApp_eq_ok.1 happs).2 a ha)
      have hconcluded : ∀ p ∈ conclusion.toList.map (·.1), p < inst.producers.length := by
        intro p hp
        obtain ⟨a, ha, rfl⟩ := List.mem_map.1 hp
        exact hproducers ▸ lt_of_takes
          (takes_of_checkConclusion hconclusion a (Option.mem_toList.1 ha))
      have hnodup : (conclusion.toList.map (·.1)).Nodup := by cases conclusion <;> simp
      dsimp only
      rw [hgroup, Act.runFrom_bind_of_ok (Act.runFrom_get _),
        Act.runFrom_bind_of_ok (Act.runFrom_modify _ _), Act.runFrom_bind, Act.runFrom_zoom,
        runFrom_noteAll _ _ (Uses.grouped_group apps).preds hused]
      dsimp only
      rw [Act.runFrom_zoom, runFrom_noteAll _ _ hnodup hconcluded]
      rfl

end InPlace

end Instance
end Horn
