import Horn.Proofs.Act
import Horn.Proofs.Semantics.Clauses
import Horn.Split.Order
import Horn.Split.Preprocess

/-!
# Well-formed instances

An instance is well-formed (`Instance.WellFormed`) if its predicates have different names, its
clauses are numbered in their order, its side conditions are formulas, and the symbol of every
predicate accepts the arguments of its applications. The empty instance is well-formed, and adding
a predicate or a clause of that kind keeps it so (`WellFormed.insertPredicate`,
`WellFormed.insertClause`). What adding a clause does, and when, is `addClause_eq_ok`.

From a well-formed instance sub-instances can be derived: `WellFormed.derive` says that this does
not fail, and that the sub-instance has the same predicates and the selected clauses, up to the
order in which the applications of a clause are kept. `WellFormed.isolate` applies that to the
isolation of a negative clause.
-/

namespace Horn

/-! ### Applications grouped by predicate -/

namespace Uses

theorem flatten_cons (u : Uses) (us : List Uses) :
    flatten (u :: us) = u.args.map (fun args => (u.pred, args)) ++ flatten us := rfl

/-- Adding an application adds that one only. -/
theorem mem_flatten_insert {a : Nat × List Term} {p : Nat} {args : List Term} {us : List Uses} :
    a ∈ flatten (insert p args us) ↔ a ∈ flatten us ∨ a = (p, args) := by
  induction us with
  | nil => simp [insert, flatten]
  | cons u us ih =>
    rw [insert]
    by_cases hu : u.pred = p
    · -- The group of the predicate is there, perhaps with the application in it.
      rw [if_pos hu, flatten_cons, flatten_cons, List.mem_append, List.mem_append]
      by_cases hargs : args ∈ u.args
      · -- The application is there already.
        rw [if_pos hargs]
        constructor
        · exact .inl
        · rintro (h | rfl)
          · exact h
          · exact .inl (List.mem_map.2 ⟨args, hargs, by rw [hu]⟩)
      · rw [if_neg hargs, hu, List.map_append, List.mem_append, List.map_singleton,
          List.mem_singleton, or_right_comm]
    · rw [if_neg hu, flatten_cons, flatten_cons, List.mem_append, List.mem_append, ih, or_assoc]

/-- Grouping keeps exactly the applications of the list. -/
theorem mem_flatten_group {a : Nat × List Term} {apps : List (Nat × List Term)} :
    a ∈ flatten (group apps) ↔ a ∈ apps := by
  have h : ∀ (apps : List (Nat × List Term)) (us : List Uses),
      a ∈ flatten (apps.foldl (fun us b => insert b.1 b.2 us) us) ↔
        a ∈ flatten us ∨ a ∈ apps := by
    intro apps
    induction apps with
    | nil => simp
    | cons b apps ih =>
      intro us
      rw [List.foldl_cons, ih, mem_flatten_insert, List.mem_cons, or_assoc]
  refine (h apps []).trans ?_
  simp [flatten]

variable {us : List Uses} {p : Nat}

/-- The groups of other predicates are passed over. -/
theorem insert_append (h : p ∉ us.map (·.pred)) (args : List Term) (vs : List Uses) :
    insert p args (us ++ vs) = us ++ insert p args vs := by
  induction us with
  | nil => rfl
  | cons u us ih =>
    rw [List.map_cons, List.mem_cons, not_or] at h
    rw [List.cons_append, insert, if_neg fun hu => h.1 hu.symm, ih h.2, List.cons_append]

/-- A predicate without a group gets one at the end. -/
theorem insert_of_not_mem (h : p ∉ us.map (·.pred)) (args : List Term) :
    insert p args us = us ++ [⟨p, [args]⟩] := by
  have hnil := insert_append h args []
  rwa [List.append_nil] at hnil

/-- A predicate is added at the end unless it is there. -/
theorem preds_insert (p : Nat) (args : List Term) (us : List Uses) :
    (insert p args us).map (·.pred) =
      if p ∈ us.map (·.pred) then us.map (·.pred) else us.map (·.pred) ++ [p] := by
  by_cases hp : p ∈ us.map (·.pred)
  · obtain ⟨u, hu, rfl⟩ := List.mem_map.1 hp
    rw [if_pos hp]
    clear hp
    -- The group is found where the predicate occurs first, and the others stay.
    induction us with
    | nil => cases hu
    | cons v us ih =>
      rw [insert]
      split
      · next hv =>
        rw [List.map_cons, List.map_cons]
        split
        · rfl
        · rw [hv]
      · next hv =>
        rw [List.map_cons, List.map_cons, ih ((List.mem_cons.1 hu).resolve_left ?_)]
        rintro rfl
        exact hv rfl
  · rw [if_neg hp, insert_of_not_mem hp, List.map_append, List.map_singleton]

/-- Grouped applications list each predicate where it occurs first. -/
theorem preds_group (apps : List (Nat × List Term)) :
    (group apps).map (·.pred) = (apps.map (·.1)).eraseDups := by
  induction apps using List.reverseRecOn with
  | nil => rfl
  | append_singleton apps a ih =>
    have hgroup : group (apps ++ [a]) = insert a.1 a.2 (group apps) := List.foldl_append
    rw [hgroup, preds_insert, ih, List.map_append, List.map_singleton, List.eraseDups_append]
    by_cases ha : a.1 ∈ apps.map (·.1)
    · have hold : [a.1].removeAll (apps.map (·.1)) = [] := by simp [List.removeAll, ha]
      rw [if_pos (List.mem_eraseDups.2 ha), hold, List.eraseDups_nil, List.append_nil]
    · have hnew : [a.1].removeAll (apps.map (·.1)) = [a.1] := by simp [List.removeAll, ha]
      rw [if_neg (mt List.mem_eraseDups.1 ha), hnew]
      rfl

end Uses

/-! ### Signatures -/

/-- What is made of a description has positions that have passed the check, whether they were given
or are those of all arguments. -/
theorem Predicate.make_ok {name : String} {sorts : List TermSort}
    {original : Option (List TermSort)} {positions : Option (List Int)} {q : Predicate}
    (h : make name sorts original positions = .ok q) :
    ∃ given checked, given.length = sorts.length ∧
      checkPositions name (original.getD sorts) 0 sorts given = .ok checked ∧
      q = ⟨name, sorts, original.getD sorts, checked, none⟩ := by
  -- The common second half: the check of a list of positions that is given or made up.
  have hchecked : ∀ given : List Int, (do
      if given.length ≠ sorts.length then throw (Fault.mapLength name)
      let positions ← checkPositions name (original.getD sorts) 0 sorts given
      pure ⟨name, sorts, original.getD sorts, positions, none⟩ : Except Fault Predicate) = .ok q →
      ∃ given checked, given.length = sorts.length ∧
        checkPositions name (original.getD sorts) 0 sorts given = .ok checked ∧
        q = ⟨name, sorts, original.getD sorts, checked, none⟩ := by
    intro given h
    split at h
    · cases h
    · next hlength =>
      obtain ⟨checked, hchecked, h⟩ := bind_eq_ok.1 h
      cases h
      exact ⟨given, checked, not_not.1 hlength, hchecked, rfl⟩
  unfold make at h
  cases positions with
  | some given => exact hchecked given h
  | none =>
    dsimp only at h
    split at h
    · exact hchecked _ h
    · cases h

/-! ### Handles -/

/-- A handle of an entry selects it. -/
theorem atHandle_natCast {α : Type} (table : List α) (i : Nat) :
    atHandle table (i : Int) = match table[i]? with
      | some a => .ok a
      | none => .error .outOfRange := by
  unfold atHandle resolve?
  rw [if_pos (Int.natCast_nonneg i)]
  by_cases h : i < table.length
  · simp [h]
  · simp [h]

namespace Instance

variable {inst : Instance}

/-! ### Well-formedness -/

/-- An application fits the table of predicates: its arguments are well-sorted, and the symbol of
its predicate accepts them. -/
def Accepts (inst : Instance) (app : Nat × List Term) : Prop :=
  ∃ q, inst.preds[app.1]? = some q ∧ (q.symbol.app? app.2).isSome ∧
    ∀ t ∈ app.2, t.isWellSorted [] = true

/-- A clause fits the table of predicates. -/
structure AcceptsClause (inst : Instance) (c : Clause) : Prop where
  terms : ∀ t ∈ c.terms, t.IsFormula
  apps : ∀ a ∈ c.apps, inst.Accepts a
  conclusion : ∀ a ∈ c.conclusion, inst.Accepts a

/-- What building an instance establishes. -/
structure WellFormed (inst : Instance) : Prop where
  names : DistinctNames inst.preds
  index : ∀ (i : Nat) (c : Clause), inst.clauses[i]? = some c → c.index = i
  clauses : ∀ c ∈ inst.clauses, inst.AcceptsClause c

instance (inst : Instance) (app : Nat × List Term) : Decidable (inst.Accepts app) :=
  match hq : inst.preds[app.1]? with
  | none => isFalse fun ⟨_, h, _⟩ => by rw [hq] at h; cases h
  | some q =>
    decidable_of_iff ((q.symbol.app? app.2).isSome = true ∧
        ∀ t ∈ app.2, t.isWellSorted [] = true)
      ⟨fun h => ⟨q, hq, h⟩, fun ⟨q', hq', h⟩ => by
        rw [hq, Option.some.injEq] at hq'
        exact hq' ▸ h⟩

instance (inst : Instance) (c : Clause) : Decidable (inst.AcceptsClause c) :=
  decidable_of_iff ((∀ t ∈ c.terms, t.IsFormula) ∧ (∀ a ∈ c.apps, inst.Accepts a) ∧
      ∀ a ∈ c.conclusion, inst.Accepts a)
    ⟨fun h => ⟨h.1, h.2.1, h.2.2⟩, fun h => ⟨h.terms, h.apps, h.conclusion⟩⟩

/-- Clauses are numbered in their order. -/
theorem index_iff {cs : List Clause} : cs.map (·.index) = List.range cs.length ↔
    ∀ (i : Nat) (c : Clause), cs[i]? = some c → c.index = i := by
  constructor
  · intro h i c hc
    have hi : (cs.map (·.index))[i]? = some c.index := by
      rw [List.getElem?_map, hc, Option.map_some]
    rw [h, List.getElem?_range (List.getElem?_eq_some_iff.1 hc).1, Option.some.injEq] at hi
    exact hi.symm
  · intro h
    refine List.ext_getElem (by simp) fun i hi _ => ?_
    rw [List.length_map] at hi
    rw [List.getElem_map, List.getElem_range]
    exact h i _ (List.getElem?_eq_getElem hi)

instance (inst : Instance) : Decidable inst.WellFormed :=
  decidable_of_iff (DistinctNames inst.preds ∧
      inst.clauses.map (·.index) = List.range inst.clauses.length ∧
      ∀ c ∈ inst.clauses, inst.AcceptsClause c)
    ⟨fun h => ⟨h.1, index_iff.1 h.2.1, h.2.2⟩, fun h => ⟨h.names, index_iff.2 h.index, h.clauses⟩⟩

theorem Accepts.mono {inst' : Instance} {app : Nat × List Term} {l : List Predicate}
    (h : inst.Accepts app) (hp : inst'.preds = inst.preds ++ l) : inst'.Accepts app := by
  obtain ⟨q, hq, happ⟩ := h
  refine ⟨q, ?_, happ⟩
  rw [hp, List.getElem?_append_left (List.getElem?_eq_some_iff.1 hq).1, hq]

theorem AcceptsClause.mono {inst' : Instance} {c : Clause} {l : List Predicate}
    (h : inst.AcceptsClause c) (hp : inst'.preds = inst.preds ++ l) : inst'.AcceptsClause c :=
  ⟨h.terms, fun a ha => (h.apps a ha).mono hp, fun a ha => (h.conclusion a ha).mono hp⟩

/-- A predicate with a new name can be added. -/
theorem WellFormed.insertPredicate (h : inst.WellFormed) {p : Predicate}
    (hp : ∀ q ∈ inst.preds, q.name ≠ p.name) : (inst.insertPredicate p).WellFormed := by
  refine ⟨?_, h.index, fun c hc => (h.clauses c hc).mono (l := [p]) rfl⟩
  change DistinctNames (inst.preds ++ [p])
  unfold DistinctNames
  rw [List.map_append, List.nodup_append]
  refine ⟨h.names, List.nodup_singleton _, ?_⟩
  -- Only the new name could come twice.
  simp only [List.mem_map, List.map_cons, List.map_nil, List.mem_singleton]
  rintro _ ⟨q, hq, rfl⟩ _ rfl
  exact hp q hq

/-- A clause that fits can be added. -/
theorem WellFormed.insertClause (h : inst.WellFormed) {c : Clause} (hc : inst.AcceptsClause c)
    (hi : c.index = inst.clauses.length) : (inst.insertClause c).WellFormed := by
  refine ⟨h.names, ?_, ?_⟩
  · -- The numbering goes on with the new clause.
    intro i d hd
    change (inst.clauses ++ [c])[i]? = some d at hd
    rw [List.getElem?_append] at hd
    split at hd
    · exact h.index i d hd
    · rw [List.getElem?_singleton] at hd
      split at hd
      · rw [Option.some.injEq] at hd
        rw [← hd, hi]
        omega
      · cases hd
  · -- An old clause, or the new one.
    intro d hd
    change d ∈ inst.clauses ++ [c] at hd
    rw [List.mem_append, List.mem_singleton] at hd
    rcases hd with hd | rfl
    · exact (h.clauses d hd).mono (l := []) (List.append_nil _).symm
    · exact hc.mono (l := []) (List.append_nil _).symm

/-! ### Adding a clause -/

/-- An application of a predicate of the instance to as many arguments as it takes. -/
def Takes (inst : Instance) (a : Nat × List Term) : Prop :=
  ∃ q, inst.preds[a.1]? = some q ∧ a.2.length = q.arity

/-- The applications that pass the check are those that the instance takes. -/
theorem checkApp_eq_ok {given : Int × List Term} {a : Nat × List Term} :
    inst.checkApp given = .ok a ↔ given = ((a.1 : Int), a.2) ∧ inst.Takes a := by
  -- A handle passes if it is not negative, leads to a predicate and has the right number of
  -- arguments.
  unfold checkApp
  constructor
  · intro h
    split at h
    · cases h
    · next hnonneg =>
      split at h
      · cases h
      · next q hq =>
        split at h
        · next hlength =>
          cases h
          exact ⟨by rw [Int.toNat_of_nonneg (Int.not_lt.1 hnonneg)], q, hq, hlength⟩
        · cases h
  · rintro ⟨rfl, q, hq, hlength⟩
    rw [if_neg (Int.not_lt.2 (Int.natCast_nonneg a.1)), Int.toNat_natCast, hq]
    exact if_pos hlength

theorem mapM_checkApp_eq_ok {given : List (Int × List Term)} {apps : List (Nat × List Term)} :
    given.mapM inst.checkApp = .ok apps ↔
      given = apps.map (fun a => ((a.1 : Int), a.2)) ∧ ∀ a ∈ apps, inst.Takes a := by
  rw [mapM_eq_ok]
  constructor
  · intro h
    refine ⟨?_, fun a ha => ?_⟩
    · rw [← List.forall₂_eq_eq_eq, List.forall₂_map_right_iff]
      exact h.imp fun _ _ happ => (checkApp_eq_ok.1 happ).1
    · obtain ⟨app, -, happ⟩ := (exists_of_forall₂ h).2 a ha
      exact (checkApp_eq_ok.1 happ).2
  · rintro ⟨rfl, h⟩
    rw [List.forall₂_map_left_iff, List.forall₂_same]
    exact fun a ha => checkApp_eq_ok.2 ⟨rfl, h a ha⟩

/-- **What adding a clause does.** A clause is added if the instance takes all of its applications,
and what is entered has the next number and the applications on the left grouped. -/
theorem addClause_eq_ok {spec : ClauseSpec} {inst' : Instance} :
    inst.addClause spec = .ok inst' ↔
      ∃ (apps : List (Nat × List Term)) (conclusion : Option (Nat × List Term)),
        spec.apps = apps.map (fun a => ((a.1 : Int), a.2)) ∧
        spec.conclusion = conclusion.map (fun a => ((a.1 : Int), a.2)) ∧
        (∀ a ∈ apps, inst.Takes a) ∧ (∀ a ∈ conclusion, inst.Takes a) ∧
        inst' = inst.insertClause ⟨inst.clauses.length, spec.vars, spec.terms, Uses.group apps,
          conclusion, spec.fromUnrolling, spec.strict⟩ := by
  unfold addClause
  rw [bind_eq_ok]
  constructor
  · rintro ⟨apps, happs, h⟩
    obtain ⟨hgiven, htakes⟩ := mapM_checkApp_eq_ok.1 happs
    dsimp only at h
    split at h
    · next hnone =>
      cases h
      exact ⟨apps, none, hgiven, hnone, htakes, nofun, rfl⟩
    · next app hsome =>
      cases happ : inst.checkApp app with
      | error e =>
        rw [happ] at h
        cases h
      | ok a =>
        rw [happ] at h
        cases h
        obtain ⟨rfl, ha⟩ := checkApp_eq_ok.1 happ
        -- The conclusion is checked like any other application.
        refine ⟨apps, some a, hgiven, hsome, htakes, ?_, rfl⟩
        rintro _ ⟨⟩
        exact ha
  · rintro ⟨apps, conclusion, hgiven, hconclusion, htakes, hconcludes, rfl⟩
    refine ⟨apps, mapM_checkApp_eq_ok.2 ⟨hgiven, htakes⟩, ?_⟩
    rw [hconclusion]
    cases conclusion with
    | none => rfl
    | some a =>
      dsimp only [Option.map_some]
      rw [checkApp_eq_ok.2 ⟨rfl, hconcludes a rfl⟩]
      rfl

/-! ### Derived instances -/

/-- A clause of a well-formed instance is found under its index. -/
theorem WellFormed.clause_index (h : inst.WellFormed) {c : Clause} (hc : c ∈ inst.clauses) :
    inst.clause (c.index : Int) = .ok c := by
  obtain ⟨i, hi⟩ := List.getElem?_of_mem hc
  rw [Instance.clause, atHandle_natCast, h.index i c hi, hi]

theorem foldl_insertPredicate (ps : List Predicate) (inst : Instance) :
    (ps.foldl insertPredicate inst).preds = inst.preds ++ ps ∧
      (ps.foldl insertPredicate inst).clauses = inst.clauses ∧
      (ps.foldl insertPredicate inst).holders = inst.holders ∧
      (ps.foldl insertPredicate inst).expansions = inst.expansions := by
  induction ps generalizing inst with
  | nil => simp
  | cons p ps ih =>
    obtain ⟨hp, hc, hh, he⟩ := ih (inst.insertPredicate p)
    rw [List.foldl_cons]
    exact ⟨by rw [hp]; simp [Instance.insertPredicate], hc, hh, he⟩

/-- An application that fits has as many arguments as it takes. -/
theorem Accepts.takes {app : Nat × List Term} (h : inst.Accepts app) : inst.Takes app := by
  obtain ⟨q, hq, happ, -⟩ := h
  obtain ⟨t, ht⟩ := Option.isSome_iff_exists.1 happ
  obtain ⟨bs, -, hbs⟩ := Symbol.app?_spec ht
  exact ⟨q, hq, (Term.length_of_castAll? hbs).symm⟩

/-- A copy of a clause, as it is entered into another instance. -/
def copyOf (c : Clause) (index : Nat) : Clause :=
  ⟨index, c.vars, c.terms, Uses.group c.apps, c.conclusion, c.fromUnrolling, c.strict⟩

theorem sameContent_copyOf (c : Clause) (index : Nat) : c.SameContent (copyOf c index) :=
  ⟨rfl, fun _ => Uses.mem_flatten_group.symm, rfl⟩

/-- A clause that fits is added as a copy. -/
theorem AcceptsClause.addClause {c : Clause} (h : inst.AcceptsClause c) :
    inst.addClause (respec c) = .ok (inst.insertClause (copyOf c inst.clauses.length)) :=
  addClause_eq_ok.2 ⟨c.apps, c.conclusion, rfl, rfl, fun a ha => (h.apps a ha).takes,
    fun a ha => (h.conclusion a ha).takes, rfl⟩

theorem AcceptsClause.copyOf {c : Clause} (h : inst.AcceptsClause c) (index : Nat) :
    inst.AcceptsClause (copyOf c index) :=
  ⟨h.terms, fun a ha => h.apps a (Uses.mem_flatten_group.1 ha), h.conclusion⟩

/-- An instance with the same predicates and with the given clauses, which nobody holds and which
remembers nothing. -/
structure Derived (inst sub : Instance) (cs : List Clause) : Prop where
  wellFormed : sub.WellFormed
  preds : sub.preds = inst.preds
  clauses : List.Forall₂ Clause.SameContent cs sub.clauses
  holders : sub.holders = 0
  expansions : sub.expansions = []

/-- One clause more. -/
theorem Derived.insertClause {sub : Instance} {cs : List Clause} {c : Clause}
    (h : Derived inst sub cs) (hc : inst.AcceptsClause c) :
    Derived inst (sub.insertClause (copyOf c sub.clauses.length)) (cs ++ [c]) := by
  have hc' : sub.AcceptsClause c := hc.mono (l := []) (by rw [h.preds, List.append_nil])
  refine ⟨h.wellFormed.insertClause (hc'.copyOf _) rfl, h.preds, ?_, h.holders, h.expansions⟩
  exact List.rel_append h.clauses (.cons (sameContent_copyOf c _) .nil)

/-- **Deriving an instance does not fail** when the clauses are taken from a well-formed one. -/
theorem WellFormed.derive (h : inst.WellFormed) (name : String) {cs : List Clause}
    (hcs : ∀ c ∈ cs, c ∈ inst.clauses) :
    ∃ sub, inst.derive name (cs.map fun c => (c.index : Int)) = .ok sub ∧ Derived inst sub cs := by
  -- The clauses are entered one after the other, after those that have been entered before.
  have hstep : ∀ (cs done : List Clause) (sub : Instance), (∀ c ∈ cs, c ∈ inst.clauses) →
      Derived inst sub done → ∃ sub', (cs.map fun c => (c.index : Int)).foldlM
        (fun sub c => do sub.addClause (respec (← inst.clause c))) sub = Except.ok sub' ∧
        Derived inst sub' (done ++ cs) := by
    intro cs
    induction cs with
    | nil =>
      intro done sub _ hsub
      exact ⟨sub, rfl, by rwa [List.append_nil]⟩
    | cons c cs ih =>
      intro done sub hcs hsub
      rw [List.forall_mem_cons] at hcs
      have hc := h.clauses c hcs.1
      have hc' : sub.AcceptsClause c := hc.mono (l := []) (by rw [hsub.preds, List.append_nil])
      obtain ⟨sub', hrun, hsub'⟩ := ih (done ++ [c]) _ hcs.2 (hsub.insertClause hc)
      refine ⟨sub', ?_, by rwa [List.append_assoc] at hsub'⟩
      rw [List.map_cons, List.foldlM_cons, h.clause_index hcs.1]
      change (sub.addClause (respec c) >>= _) = _
      rw [hc'.addClause]
      exact hrun
  -- The first instance has all predicates and no clause.
  obtain ⟨hp, hc, hh, he⟩ := foldl_insertPredicate inst.preds (Instance.empty name)
  refine hstep cs [] _ hcs ⟨⟨?_, ?_, ?_⟩, hp, ?_, hh, he⟩
  · rw [hp]
    exact h.names
  · intro i c hic
    rw [hc] at hic
    cases hic
  · intro c hcm
    rw [hc] at hcm
    cases hcm
  · rw [hc]
    exact .nil

/-- The clauses that isolating a clause keeps. -/
def keptClauses (inst : Instance) (isolated : Int) : List Clause :=
  inst.clauses.filter fun c => c.conclusion.isSome || (c.index : Int) == isolated

/-- Isolating a clause of a well-formed instance does not fail. -/
theorem WellFormed.isolate (h : inst.WellFormed) (isolated : Int) :
    ∃ sub, inst.isolate isolated = .ok sub ∧ Derived inst sub (inst.keptClauses isolated) :=
  h.derive _ fun _ hc => List.mem_of_mem_filter hc

/-! ### The negative clauses in order -/

theorem length_splitOrder (inst : Instance) (byConnectivity : Bool) :
    (inst.splitOrder byConnectivity).length = inst.negClauses.length := by
  simp [splitOrder, negClauses]

/-- The order of the splits contains exactly the indices of the negative clauses. -/
theorem mem_splitOrder {byConnectivity : Bool} {i : Nat} :
    i ∈ inst.splitOrder byConnectivity ↔ ∃ c ∈ inst.clauses, c.conclusion = none ∧ c.index = i := by
  unfold splitOrder
  -- Sorting only permutes the entries.
  simp only [List.mem_map, List.mem_mergeSort, List.mem_filter, Clause.isNegative,
    Option.isNone_iff_eq_none]
  constructor
  · rintro ⟨_, ⟨c, ⟨hc, hneg⟩, rfl⟩, rfl⟩
    exact ⟨c, hc, hneg, rfl⟩
  · rintro ⟨c, hc, hneg, rfl⟩
    exact ⟨_, ⟨c, ⟨hc, hneg⟩, rfl⟩, rfl⟩

/-- Sorting leaves negative clauses alone that are in the table by ascending priority. -/
theorem splitOrder_of_pairwise {byConnectivity : Bool}
    (h : (inst.clauses.filter (·.isNegative)).Pairwise fun c d =>
      (inst.priority byConnectivity c).le (inst.priority byConnectivity d) = true) :
    inst.splitOrder byConnectivity = inst.negClauses := by
  have hsorted : ((inst.clauses.filter (·.isNegative)).map fun c =>
      (inst.priority byConnectivity c, c.index)).Pairwise fun a b => a.1.le b.1 = true :=
    List.pairwise_map.2 h
  rw [splitOrder, List.mergeSort_of_pairwise hsorted, List.map_map]
  rfl

end Instance
end Horn
