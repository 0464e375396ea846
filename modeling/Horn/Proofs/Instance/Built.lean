import Horn.Proofs.Instance.Index
import Horn.Proofs.Split.Trivial

/-!
# Instances that have been built

`Instance.Built` are the instances that adding predicates, adding clauses and setting definitions
lead to. They are canonical (`Built.canonical`): among others, the applications on the left of each
clause are grouped in the way in which they would be grouped again (`Uses.group_flatten`), and each
predicate is what would be made again from what is stored of it (`Predicate.Consistent`).

Hence nothing gets lost where such an instance is split.

* `Canonical.derive`: the clauses of a derived instance are the selected ones, in their order and
  with all that they had, numbered anew.
* `Built.splits`: the part for a negative clause has the same predicates, all clauses with a
  conclusion and that negative one. An interpretation satisfies the instance if and only if it
  satisfies all of its parts.
-/

namespace Horn

/-! ### Grouped applications -/

namespace Uses

variable {us : List Uses} {p : Nat} {args : List Term}

/-- Each predicate has one group, which is not empty and has no application twice. -/
structure Grouped (us : List Uses) : Prop where
  preds : (us.map (·.pred)).Nodup
  args : ∀ u ∈ us, u.args ≠ [] ∧ u.args.Nodup

theorem grouped_nil : Grouped [] := ⟨List.nodup_nil, List.forall_mem_nil _⟩

/-- Adding an application keeps the groups. -/
theorem Grouped.insert (h : Grouped us) (p : Nat) (args : List Term) :
    Grouped (insert p args us) := by
  by_cases hp : p ∈ us.map (·.pred)
  · -- The predicate has a group, before and after which are those of other predicates.
    obtain ⟨u, hu, rfl⟩ := List.mem_map.1 hp
    obtain ⟨vs, ws, rfl⟩ := List.append_of_mem hu
    have hpreds := h.preds
    rw [List.map_append, List.map_cons] at hpreds
    have hvs : u.pred ∉ vs.map (·.pred) := fun hmem =>
      (List.nodup_append.1 hpreds).2.2 u.pred hmem u.pred List.mem_cons_self rfl
    have hold := List.forall_mem_append.1 h.args
    have hrest := List.forall_mem_cons.1 hold.2
    rw [insert_append hvs, Uses.insert, if_pos rfl]
    by_cases hargs : args ∈ u.args
    · rw [if_pos hargs]
      exact h
    · rw [if_neg hargs]
      refine ⟨?_, ?_⟩
      · rwa [List.map_append, List.map_cons]
      · have hnew : (u.args ++ [args]).Nodup := by
          rw [← List.concat_eq_append]
          exact hrest.1.2.concat hargs
        exact List.forall_mem_append.2
          ⟨hold.1, List.forall_mem_cons.2 ⟨⟨by simp, hnew⟩, hrest.2⟩⟩
  · rw [insert_of_not_mem hp]
    refine ⟨?_, ?_⟩
    · rw [List.map_append, List.map_singleton, ← List.concat_eq_append]
      exact h.preds.concat hp
    · exact List.forall_mem_append.2
        ⟨h.args, List.forall_mem_singleton.2 ⟨List.cons_ne_nil _ _, List.nodup_singleton args⟩⟩

theorem grouped_group (apps : List (Nat × List Term)) : Grouped (group apps) := by
  have hfold : ∀ (apps : List (Nat × List Term)) (us : List Uses), Grouped us →
      Grouped (apps.foldl (fun us b => insert b.1 b.2 us) us) := by
    intro apps
    induction apps with
    | nil => exact fun us h => h
    | cons a apps ih => exact fun us h => ih _ (h.insert a.1 a.2)
  exact hfold apps [] grouped_nil

/-- Applications of one predicate make its group longer. -/
theorem foldl_insert_map (h : p ∉ us.map (·.pred)) (as : List (List Term)) {bs : List (List Term)}
    (hnodup : (as ++ bs).Nodup) :
    (bs.map fun args => (p, args)).foldl (fun us b => insert b.1 b.2 us) (us ++ [⟨p, as⟩]) =
      us ++ [⟨p, as ++ bs⟩] := by
  induction bs generalizing as with
  | nil => rw [List.append_nil, List.map_nil, List.foldl_nil]
  | cons b bs ih =>
    have hb : b ∉ as := fun hmem =>
      (List.nodup_append.1 hnodup).2.2 b hmem b List.mem_cons_self rfl
    have hstep : insert p b (us ++ [⟨p, as⟩]) = us ++ [⟨p, as ++ [b]⟩] := by
      rw [insert_append h, insert, if_pos rfl, if_neg hb]
    rw [List.append_cons] at hnodup
    rw [List.map_cons, List.foldl_cons, hstep, ih _ hnodup, ← List.append_cons]

/-- **Grouping again.** From the applications one by one come the groups that there were. -/
theorem group_flatten (h : Grouped us) : group (flatten us) = us := by
  have hfold : ∀ us done : List Uses, Grouped (done ++ us) →
      (flatten us).foldl (fun us b => insert b.1 b.2 us) done = done ++ us := by
    intro us
    induction us with
    | nil => exact fun done _ => (List.append_nil done).symm
    | cons u us ih =>
      intro done h
      obtain ⟨hne, hnodup⟩ := h.args u (List.mem_append_right _ List.mem_cons_self)
      have hu : u.pred ∉ done.map (·.pred) := by
        have hpreds := h.preds
        rw [List.map_append, List.map_cons] at hpreds
        exact fun hmem =>
          (List.nodup_append.1 hpreds).2.2 u.pred hmem u.pred List.mem_cons_self rfl
      -- The first application makes the group, and the others follow.
      obtain ⟨p, as⟩ := u
      obtain ⟨a, as, rfl⟩ := List.exists_cons_of_ne_nil hne
      have hgroup := foldl_insert_map hu [a] hnodup
      rw [flatten_cons, List.foldl_append, List.map_cons, List.foldl_cons,
        insert_of_not_mem hu, hgroup, List.singleton_append]
      rw [List.append_cons] at h
      rw [ih _ h, ← List.append_cons]
  exact hfold us [] h

end Uses

/-! ### Consistent predicates -/

namespace Predicate

/-- The predicate is made again from what is stored of it, but for its definition. -/
def Consistent (q : Predicate) : Prop :=
  make q.name q.sorts (some q.originalSorts) (some (q.positions.map Int.ofNat)) =
    .ok { q with definition := none }

/-- Positions that pass the check are not negative. -/
theorem eq_map_of_checkPositions {name : String} {original : List TermSort} {i : Nat}
    {sorts : List TermSort} {given : List Int} {checked : List Nat}
    (hlength : given.length = sorts.length)
    (h : checkPositions name original i sorts given = .ok checked) :
    given = checked.map Int.ofNat := by
  induction sorts generalizing i given checked with
  | nil =>
    obtain rfl := List.length_eq_zero_iff.1 hlength
    cases h
    rfl
  | cons s sorts ih =>
    cases given with
    | nil => cases hlength
    | cons old given =>
      -- The position has to lie inside the original signature and to have the sort of the argument.
      rw [checkPositions] at h
      split at h
      · cases h
      · next hinside =>
        split at h
        · cases h
        · cases hrest : checkPositions name original (i + 1) sorts given with
          | error e =>
            rw [hrest] at h
            cases h
          | ok rest =>
            rw [hrest] at h
            cases h
            -- A position inside of the signature is not negative, so nothing is lost when it is
            -- counted.
            have hnonneg : Int.ofNat old.toNat = old := Int.toNat_of_nonneg (by omega)
            rw [List.map_cons, hnonneg, ← ih (Nat.succ.inj hlength) hrest]

/-- A predicate that has been made can be made again. -/
theorem consistent_of_make {name : String} {sorts : List TermSort}
    {original : Option (List TermSort)} {positions : Option (List Int)} {q : Predicate}
    (h : make name sorts original positions = .ok q) : q.Consistent := by
  obtain ⟨given, checked, hlength, hchecked, rfl⟩ := make_ok h
  rw [Consistent, make, ← eq_map_of_checkPositions hlength hchecked]
  change (if given.length ≠ sorts.length then _ else _) = _
  rw [if_neg (not_not.2 hlength), Option.getD_some, hchecked]
  rfl

end Predicate

namespace Instance

variable {inst inst' sub : Instance} {c : Clause} {a : Nat × List Term}

/-! ### Canonical instances -/

/-- A clause as adding one leaves it. -/
structure TakesClause (inst : Instance) (c : Clause) : Prop where
  grouped : Uses.Grouped c.uses
  apps : ∀ a ∈ c.apps, inst.Takes a
  conclusion : ∀ a ∈ c.conclusion, inst.Takes a

/-- What building establishes, whatever the formulas are. -/
structure Canonical (inst : Instance) : Prop where
  indexed : inst.Indexed
  names : DistinctNames inst.preds
  consistent : ∀ q ∈ inst.preds, q.Consistent
  clauses : ∀ c ∈ inst.clauses, inst.TakesClause c
  expansions : inst.expansions = []

/-- What is taken depends on the numbers of arguments only. -/
theorem TakesClause.mono (h : inst.TakesClause c)
    (hpreds : ∀ (i : Nat) (q : Predicate), inst.preds[i]? = some q →
      ∃ q', inst'.preds[i]? = some q' ∧ q'.arity = q.arity) : inst'.TakesClause c := by
  have htakes : ∀ a, inst.Takes a → inst'.Takes a := by
    rintro a ⟨q, hq, hlength⟩
    obtain ⟨q', hq', harity⟩ := hpreds a.1 q hq
    exact ⟨q', hq', hlength.trans harity.symm⟩
  exact ⟨h.grouped, fun a ha => htakes a (h.apps a ha), fun a ha => htakes a (h.conclusion a ha)⟩

theorem canonical_empty (name : String) : (empty name).Canonical :=
  ⟨indexed_empty name, List.nodup_nil, List.forall_mem_nil _, List.forall_mem_nil _, rfl⟩

theorem Canonical.insertPredicate (h : inst.Canonical) {q : Predicate} (hq : q.Consistent)
    (hname : ∀ r ∈ inst.preds, r.name ≠ q.name) : (inst.insertPredicate q).Canonical := by
  refine ⟨h.indexed.insertPredicate q, ?_, ?_, fun c hc => ?_, h.expansions⟩
  · change ((inst.preds ++ [q]).map (·.name)).Nodup
    rw [List.map_append, List.map_singleton, ← List.concat_eq_append]
    refine h.names.concat fun hmem => ?_
    obtain ⟨r, hr, hrq⟩ := List.mem_map.1 hmem
    exact hname r hr hrq
  · exact List.forall_mem_append.2 ⟨h.consistent, List.forall_mem_singleton.2 hq⟩
  · refine (h.clauses c hc).mono fun i r hr => ⟨r, ?_, rfl⟩
    exact (List.getElem?_append_left (List.getElem?_eq_some_iff.1 hr).1).trans hr

/-- Adding a predicate enters a consistent one with a new name. -/
theorem exists_insertPredicate {name : String} {sorts : List TermSort}
    {original : Option (List TermSort)} {positions : Option (List Int)}
    (h : inst.addPredicate name sorts original positions = .ok inst') :
    ∃ q, inst' = inst.insertPredicate q ∧ q.Consistent ∧ ∀ r ∈ inst.preds, r.name ≠ q.name := by
  unfold Instance.addPredicate at h
  split at h
  · cases h
  · next hnew =>
    obtain ⟨q, hq, h⟩ := bind_eq_ok.1 h
    cases h
    have hname : q.name = name := by
      obtain ⟨given, checked, -, -, rfl⟩ := Predicate.make_ok hq
      rfl
    refine ⟨q, rfl, Predicate.consistent_of_make hq, fun r hr hrq => hnew ?_⟩
    exact List.any_eq_true.2 ⟨r, hr, beq_iff_eq.2 (hrq.trans hname)⟩

/-- Adding a clause enters one with grouped applications, all of which have passed the check. -/
theorem exists_insertClause {spec : ClauseSpec} (h : inst.addClause spec = .ok inst') :
    ∃ c, inst' = inst.insertClause c ∧ inst.TakesClause c := by
  obtain ⟨apps, conclusion, -, -, happs, hconclusion, rfl⟩ := addClause_eq_ok.1 h
  exact ⟨_, rfl, Uses.grouped_group apps, fun a ha => happs a (Uses.mem_flatten_group.1 ha),
    hconclusion⟩

theorem Canonical.addClause (h : inst.Canonical) {spec : ClauseSpec}
    (ha : inst.addClause spec = .ok inst') : inst'.Canonical := by
  have hindexed := h.indexed.addClause ha
  obtain ⟨c, rfl, hc⟩ := exists_insertClause ha
  have hmono : ∀ d, inst.TakesClause d → (inst.insertClause c).TakesClause d :=
    fun d hd => hd.mono fun i q hq => ⟨q, hq, rfl⟩
  refine ⟨hindexed, h.names, h.consistent, List.forall_mem_append.2 ⟨?_, ?_⟩, h.expansions⟩
  · exact fun d hd => hmono d (h.clauses d hd)
  · exact List.forall_mem_singleton.2 (hmono c hc)

theorem Canonical.setDefinition (h : inst.Canonical) {p : Int} {body : Term}
    {params : Option (List Constant)} (hs : inst.setDefinition p body params = .ok inst') :
    inst'.Canonical := by
  have hindexed := h.indexed.setDefinition hs
  unfold Instance.setDefinition at hs
  split at hs
  · cases hs
  · next i hi =>
    cases hs
    -- Each predicate is as before, or it is as before but for its definition.
    have hplace : ∀ j : Nat, (inst.preds.modify i fun q =>
        { q with definition := some ⟨params.getD q.params, body⟩ })[j]? =
          inst.preds[j]?.map fun q =>
            if i = j then { q with definition := some ⟨params.getD q.params, body⟩ } else q :=
      fun j => List.getElem?_modify _ _ _ _
    refine ⟨hindexed, ?_, fun q hq => ?_, fun c hc => (h.clauses c hc).mono fun j q hq => ?_, rfl⟩
    · have hnames : (inst.preds.modify i fun q =>
          { q with definition := some ⟨params.getD q.params, body⟩ }).map (fun q => q.name) =
            inst.preds.map fun q => q.name := by
        refine List.ext_getElem? fun j => ?_
        rw [List.getElem?_map, hplace, List.getElem?_map, Option.map_map]
        refine congrFun (congrArg Option.map ?_) _
        funext q
        by_cases hij : i = j <;> simp [hij]
      rw [DistinctNames]
      exact hnames ▸ h.names
    · obtain ⟨j, hj⟩ := List.getElem?_of_mem hq
      rw [hplace] at hj
      obtain ⟨r, hr, rfl⟩ := Option.map_eq_some_iff.1 hj
      have hconsistent := h.consistent r (List.mem_of_getElem? hr)
      split
      · exact hconsistent
      · exact hconsistent
    · refine ⟨_, (hplace j).trans (by rw [hq, Option.map_some]), ?_⟩
      split <;> rfl

/-! ### Building -/

/-- An instance that has been built, step by step. -/
inductive Built : Instance → Prop
  | empty (name : String) : Built (empty name)
  | addPredicate {inst inst' : Instance} (h : Built inst) (name : String) (sorts : List TermSort)
      (original : Option (List TermSort)) (positions : Option (List Int))
      (ha : inst.addPredicate name sorts original positions = .ok inst') : Built inst'
  | addClause {inst inst' : Instance} (h : Built inst) (spec : ClauseSpec)
      (ha : inst.addClause spec = .ok inst') : Built inst'
  | setDefinition {inst inst' : Instance} (h : Built inst) (p : Int) (body : Term)
      (params : Option (List Constant)) (hs : inst.setDefinition p body params = .ok inst') :
      Built inst'

/-- **All instances that have been built** are canonical. -/
theorem Built.canonical (h : inst.Built) : inst.Canonical := by
  induction h with
  | empty name => exact canonical_empty name
  | addPredicate _ name sorts original positions ha ih =>
    obtain ⟨q, rfl, hq, hname⟩ := exists_insertPredicate ha
    exact ih.insertPredicate hq hname
  | addClause _ spec ha ih => exact ih.addClause ha
  | setDefinition _ p body params hs ih => exact ih.setDefinition hs

theorem modify_append {α : Type} (l : List α) (a : α) (f : α → α) :
    (l ++ [a]).modify l.length f = l ++ [f a] := by
  induction l with
  | nil => rfl
  | cons b l ih => exact congrArg (b :: ·) ih

/-- A consistent predicate with a new name can be entered with its definition: the checks pass, and
setting the definition afterwards gives the same. -/
theorem Built.insertPredicate (h : inst.Built) {q : Predicate} (hq : q.Consistent)
    (hname : ∀ r ∈ inst.preds, r.name ≠ q.name) : (inst.insertPredicate q).Built := by
  have hnew : (inst.preds.any fun r => r.name == q.name) = false := by
    rw [List.any_eq_false]
    exact fun r hr hrq => hname r hr (beq_iff_eq.1 hrq)
  -- The positions have passed the check before, when the predicate was made consistent.
  have hadd : inst.addPredicate q.name q.sorts (some q.originalSorts)
      (some (q.positions.map Int.ofNat)) =
        .ok (inst.insertPredicate { q with definition := none }) := by
    rw [Instance.addPredicate, hnew, hq]
    rfl
  have hbuilt := h.addPredicate _ _ _ _ hadd
  cases hd : q.definition with
  | none =>
    have hself : { q with definition := none } = q := by rw [← hd]
    rwa [hself] at hbuilt
  | some d =>
    -- The definition is set at the last handle, that of the new predicate.
    refine hbuilt.setDefinition (inst.preds.length : Int) d.body (some d.params) ?_
    have hresolve : resolve? (inst.insertPredicate { q with definition := none }).preds.length
        (inst.preds.length : Int) = some inst.preds.length := by
      simp [resolve?, Instance.insertPredicate]
    have hself : { q with definition := some ⟨d.params, d.body⟩ } = q := by rw [← hd]
    have hexpansions := h.canonical.expansions
    rw [Instance.setDefinition, hresolve]
    simp only [Instance.insertPredicate, Option.getD_some, hexpansions, modify_append, hself]

/-! ### Deriving -/

/-- Clauses with their places in the list as numbers. -/
def renumbered (cs : List Clause) : List Clause := cs.zipIdx.map fun (c, i) => { c with index := i }

theorem renumbered_concat (cs : List Clause) (c : Clause) :
    renumbered (cs ++ [c]) = renumbered cs ++ [{ c with index := cs.length }] := by
  rw [renumbered, List.zipIdx_append, List.map_append, Nat.zero_add]
  rfl

theorem length_renumbered (cs : List Clause) : (renumbered cs).length = cs.length := by
  rw [renumbered, List.length_map, List.length_zipIdx]

/-- A number says nothing. -/
theorem sameContent_index (c : Clause) (i : Nat) : Clause.SameContent { c with index := i } c :=
  ⟨rfl, fun _ => Iff.rfl, rfl⟩

/-- The clauses, but for their numbers. -/
theorem forall_mem_renumbered {P : Clause → Prop} (hP : ∀ c i, P { c with index := i } ↔ P c)
    (cs : List Clause) : (∀ c ∈ renumbered cs, P c) ↔ ∀ c ∈ cs, P c := by
  induction cs using List.reverseRecOn with
  | nil => exact Iff.rfl
  | append_singleton cs c ih =>
    rw [renumbered_concat, List.forall_mem_append, List.forall_mem_append, ih,
      List.forall_mem_singleton, List.forall_mem_singleton, hP]

/-- A clause that fits is added as it is, with the next number. -/
theorem TakesClause.addClause (h : inst.TakesClause c) : inst.addClause (respec c) =
    .ok (inst.insertClause { c with index := inst.clauses.length }) := by
  refine addClause_eq_ok.2 ⟨c.apps, c.conclusion, rfl, rfl, h.apps, h.conclusion, ?_⟩
  rw [show Uses.group c.apps = c.uses from Uses.group_flatten h.grouped]
  rfl

/-- All predicates can be entered into a new instance. -/
theorem Canonical.built_predicates (h : inst.Canonical) (name : String) :
    (inst.preds.foldl Instance.insertPredicate (empty name)).Built := by
  have hfold : ∀ (qs : List Predicate) (sub : Instance), sub.Built → (∀ q ∈ qs, q.Consistent) →
      ((sub.preds ++ qs).map (·.name)).Nodup → (qs.foldl Instance.insertPredicate sub).Built := by
    intro qs
    induction qs with
    | nil => exact fun sub hsub _ _ => hsub
    | cons q qs ih =>
      intro sub hsub hqs hnames
      rw [List.forall_mem_cons] at hqs
      refine ih _ (hsub.insertPredicate hqs.1 fun r hr hrq => ?_) hqs.2 ?_
      · -- The names are different.
        rw [List.map_append, List.map_cons] at hnames
        exact (List.nodup_append.1 hnames).2.2 r.name (List.mem_map_of_mem hr) q.name
          List.mem_cons_self hrq
      · rwa [List.append_cons] at hnames
  exact hfold inst.preds (empty name) (.empty name) h.consistent h.names

/-- **Deriving** an instance with some of the clauses does not fail. It has all predicates, and the
clauses in the order of the list, with new numbers. -/
theorem Canonical.derive (h : inst.Canonical) (name : String) (cs : List Clause)
    (hcs : ∀ c ∈ cs, c ∈ inst.clauses) :
    ∃ sub, inst.derive name (cs.map fun c => (c.index : Int)) = .ok sub ∧ sub.Built ∧
      sub.preds = inst.preds ∧ sub.clauses = renumbered cs := by
  -- The clauses are entered one after the other, after those that have been entered before.
  have hstep : ∀ (cs done : List Clause) (sub : Instance), (∀ c ∈ cs, c ∈ inst.clauses) →
      sub.Built → sub.preds = inst.preds → sub.clauses = renumbered done →
      ∃ sub', (cs.map fun c => (c.index : Int)).foldlM
        (fun sub c => do sub.addClause (respec (← inst.clause c))) sub = Except.ok sub' ∧
        sub'.Built ∧ sub'.preds = inst.preds ∧ sub'.clauses = renumbered (done ++ cs) := by
    intro cs
    induction cs with
    | nil =>
      intro done sub _ hbuilt hpreds hclauses
      exact ⟨sub, rfl, hbuilt, hpreds, by rwa [List.append_nil]⟩
    | cons c cs ih =>
      intro done sub hcs hbuilt hpreds hclauses
      rw [List.forall_mem_cons] at hcs
      have hfound : inst.clause (c.index : Int) = .ok c := by
        rw [Instance.clause, atHandle_natCast, h.indexed.getElem?_index hcs.1]
      have htakes : sub.TakesClause c := (h.clauses c hcs.1).mono fun i q hq =>
        ⟨q, by rwa [hpreds], rfl⟩
      have hadd := htakes.addClause
      have hlast : (sub.insertClause { c with index := sub.clauses.length }).clauses =
          renumbered (done ++ [c]) := by
        rw [renumbered_concat, ← length_renumbered done, ← hclauses]
        rfl
      obtain ⟨sub', hrun, hbuilt', hpreds', hclauses'⟩ :=
        ih (done ++ [c]) _ hcs.2 (hbuilt.addClause _ hadd) hpreds hlast
      refine ⟨sub', ?_, hbuilt', hpreds', by rwa [List.append_assoc] at hclauses'⟩
      rw [List.map_cons, List.foldlM_cons, hfound]
      change (sub.addClause (respec c) >>= _) = _
      rw [hadd]
      exact hrun
  obtain ⟨hpreds, hclauses, -, -⟩ := foldl_insertPredicate inst.preds (Instance.empty name)
  exact hstep cs [] _ hcs (h.built_predicates name) hpreds hclauses

/-! ### Splitting -/

/-- The part of an instance for one of its negative clauses: all predicates, all clauses with a
conclusion and this negative clause. The clauses are in their order, and only their numbers change.
-/
structure IsPart (inst : Instance) (c : Clause) (sub : Instance) : Prop where
  preds : sub.preds = inst.preds
  clauses : sub.clauses = renumbered (inst.keptClauses c.index)
  kept : ∀ d, d ∈ inst.keptClauses c.index ↔ d ∈ inst.clauses ∧ (d.isNegative = false ∨ d = c)
  negative : ∃ i, sub.clauses.filter (·.isNegative) = [{ c with index := i }]
  built : sub.Built

/-- Clauses are told apart by their numbers. -/
theorem Indexed.eq_of_index (h : inst.Indexed) {c d : Clause} (hc : c ∈ inst.clauses)
    (hd : d ∈ inst.clauses) (hcd : c.index = d.index) : c = d := by
  have hfound := h.getElem?_index hc
  rw [hcd, h.getElem?_index hd] at hfound
  exact (Option.some.inj hfound).symm

theorem Indexed.mem_keptClauses (h : inst.Indexed) (hc : c ∈ inst.clauses) (d : Clause) :
    d ∈ inst.keptClauses c.index ↔ d ∈ inst.clauses ∧ (d.isNegative = false ∨ d = c) := by
  rw [keptClauses, List.mem_filter, Bool.or_eq_true, beq_iff_eq, Int.natCast_inj, Clause.isNegative,
    Option.isNone_eq_false_iff]
  refine and_congr_right fun hd => or_congr_right ?_
  constructor
  · exact h.eq_of_index hd hc
  · rintro rfl
    rfl

/-- Of the negative clauses only the isolated one is kept. -/
theorem Indexed.filter_keptClauses (h : inst.Indexed) (hc : c ∈ inst.clauses)
    (hneg : c.isNegative = true) : (inst.keptClauses c.index).filter (·.isNegative) = [c] := by
  -- No clause is there twice, since the clauses are numbered.
  have hnodup : inst.clauses.Nodup := by
    have hindex := List.nodup_range (n := inst.clauses.length)
    rw [← h.index] at hindex
    exact hindex.of_map _
  refine List.perm_singleton.1 ((List.perm_ext_iff_of_nodup ((hnodup.filter _).filter _)
    (List.nodup_singleton c)).2 fun d => ?_)
  rw [List.mem_filter, List.mem_singleton]
  change d ∈ inst.keptClauses c.index ∧ d.isNegative = true ↔ d = c
  rw [h.mem_keptClauses hc]
  -- A kept clause without conclusion can only be the isolated one.
  constructor
  · rintro ⟨⟨-, hd | hd⟩, hdneg⟩
    · rw [hd] at hdneg
      cases hdneg
    · exact hd
  · rintro rfl
    exact ⟨⟨hc, .inr rfl⟩, hneg⟩

theorem filter_renumbered (cs : List Clause) {c : Clause}
    (h : cs.filter (·.isNegative) = [c]) :
    ∃ i, (renumbered cs).filter (·.isNegative) = [{ c with index := i }] := by
  -- Filtering the clauses with their places is filtering the clauses.
  have hplaces : (cs.zipIdx.filter fun e => e.1.isNegative).map Prod.fst = [c] := by
    calc (cs.zipIdx.filter fun e => e.1.isNegative).map Prod.fst
        = (cs.zipIdx.map Prod.fst).filter (·.isNegative) := by
          rw [List.filter_map]
          rfl
      _ = [c] := by rw [List.zipIdx_map_fst, h]
  obtain ⟨⟨d, i⟩, hfilter, hd⟩ := List.map_eq_singleton_iff.1 hplaces
  obtain rfl : d = c := hd
  refine ⟨i, ?_⟩
  rw [renumbered, List.filter_map]
  exact congrArg (List.map _) hfilter

theorem Canonical.isolate (h : inst.Canonical) (hc : c ∈ inst.clauses)
    (hneg : c.isNegative = true) : ∃ sub, inst.isolate c.index = .ok sub ∧ inst.IsPart c sub := by
  obtain ⟨sub, hrun, hbuilt, hpreds, hclauses⟩ := h.derive (inst.splitName c.index)
    (inst.keptClauses c.index) fun d hd => List.mem_of_mem_filter hd
  refine ⟨sub, hrun, hpreds, hclauses, h.indexed.mem_keptClauses hc, ?_, hbuilt⟩
  rw [hclauses]
  exact filter_renumbered _ (h.indexed.filter_keptClauses hc hneg)

/-- A property of clauses that is not about their numbers holds of an instance with a negative
clause if and only if it holds of all its parts. -/
theorem Canonical.forall_iff_parts (h : inst.Canonical) {P : Clause → Prop}
    (hP : ∀ c i, P { c with index := i } ↔ P c) (hneg : ∃ c ∈ inst.clauses, c.isNegative = true) :
    (∀ c ∈ inst.clauses, P c) ↔ ∀ c ∈ inst.clauses, c.isNegative = true →
      ∀ sub, inst.isolate c.index = .ok sub → ∀ d ∈ sub.clauses, P d := by
  -- What holds of a part is what holds of the clauses that are kept.
  have hpart : ∀ c ∈ inst.clauses, c.isNegative = true → ∀ sub, inst.isolate c.index = .ok sub →
      ((∀ d ∈ sub.clauses, P d) ↔ ∀ d ∈ inst.keptClauses c.index, P d) := by
    intro c hc hcneg sub hsub
    obtain ⟨sub', hsub', hispart⟩ := h.isolate hc hcneg
    obtain rfl := Except.ok.inj (hsub.symm.trans hsub')
    rw [hispart.clauses, forall_mem_renumbered hP]
  constructor
  · intro hall c hc hcneg sub hsub
    rw [hpart c hc hcneg sub hsub]
    exact fun d hd => hall d (List.mem_of_mem_filter hd)
  · intro hall d hd
    -- A negative clause is in its own part, and the others are in all parts.
    by_cases hdneg : d.isNegative = true
    · obtain ⟨sub, hsub, -⟩ := h.isolate hd hdneg
      exact (hpart d hd hdneg sub hsub).1 (hall d hd hdneg sub hsub) d
        ((h.indexed.mem_keptClauses hd d).2 ⟨hd, .inr rfl⟩)
    · obtain ⟨c, hc, hcneg⟩ := hneg
      obtain ⟨sub, hsub, -⟩ := h.isolate hc hcneg
      exact (hpart c hc hcneg sub hsub).1 (hall c hc hcneg sub hsub) d
        ((h.indexed.mem_keptClauses hc d).2 ⟨hd, .inl (Bool.not_eq_true _ ▸ hdneg)⟩)

/-- What the standard preprocessor leaves to the learner is the part for the clause. -/
theorem isolate_of_reduceClause {κ : Type} {engine : Engine} {isolated : Int} {excluded : List Nat}
    {w w' : World κ} (h : (reduceClause engine inst isolated excluded).runFrom w =
      (.ok (.sub sub), w')) : inst.isolate isolated = .ok sub := by
  obtain ⟨part, answer, w₁, w₂, hpart, -, hreduced⟩ := reduceClause_ok h
  cases answer with
  | some model => cases hreduced
  | none =>
    cases hreduced
    exact hpart

/-- **Splitting loses nothing.** The part for each negative clause of an instance that has been
built has the same predicates and exactly the clauses that it is to have, and the standard
preprocessor leaves no other instance to the learner. If there is a negative clause, an
interpretation satisfies the instance if and only if it satisfies all the parts, and so for single
structures. -/
theorem Built.splits (h : inst.Built) :
    (∀ c ∈ inst.clauses, c.isNegative = true →
      (∃ sub, inst.isolate c.index = .ok sub ∧ inst.IsPart c sub) ∧
      ∀ (κ : Type) (engine : Engine) (excluded : List Nat) (w w' : World κ) (sub : Instance),
        (reduceClause engine inst c.index excluded).runFrom w = (.ok (.sub sub), w') →
          inst.isolate c.index = .ok sub) ∧
    ((∃ c ∈ inst.clauses, c.isNegative = true) →
      (∀ J : Interpretation inst.preds, (∀ c ∈ inst.clauses, J.Satisfies c) ↔
        ∀ c ∈ inst.clauses, c.isNegative = true → ∀ sub, inst.isolate c.index = .ok sub →
          ∀ d ∈ sub.clauses, J.Satisfies d) ∧
      ∀ (U : Universe) (M : Structure U), (∀ c ∈ inst.clauses, M.SatClause inst.preds c) ↔
        ∀ c ∈ inst.clauses, c.isNegative = true → ∀ sub, inst.isolate c.index = .ok sub →
          ∀ d ∈ sub.clauses, M.SatClause inst.preds d) := by
  have hcanonical := h.canonical
  refine ⟨fun c hc hneg => ⟨hcanonical.isolate hc hneg, ?_⟩, fun hneg => ⟨fun J => ?_,
    fun U M => ?_⟩⟩
  · exact fun κ engine excluded w w' sub => isolate_of_reduceClause
  · exact hcanonical.forall_iff_parts
      (fun c i => ⟨(sameContent_index c i).satisfies, (sameContent_index c i).symm.satisfies⟩) hneg
  · exact hcanonical.forall_iff_parts
      (fun c i => ⟨(sameContent_index c i).satClause, (sameContent_index c i).symm.satClause⟩) hneg

/-- The predicates `A` and `B` with the clauses `B ∧ A ∧ B → false`, `A` and `A → false`. -/
def forked : Instance where
  name := "forked"
  preds := [⟨"A", [], [], [], none⟩, ⟨"B", [], [], [], none⟩]
  clauses := [⟨0, [], [], [⟨1, [[]]⟩, ⟨0, [[]]⟩], none, false, true⟩,
    ⟨1, [], [], [], some (0, []), false, true⟩, ⟨2, [], [], [⟨0, [[]]⟩], none, false, true⟩]
  users := [[0, 2], [0]]
  producers := [[1], []]
  holders := 0
  expansions := []

/-- The part for its last clause has the fact, as its first clause, and this one. -/
theorem splits_forked : forked.Built ∧ ∃ sub, forked.isolate 2 = .ok sub ∧
    sub.preds = forked.preds ∧
    sub.clauses = [⟨0, [], [], [], some (0, []), false, true⟩,
      ⟨1, [], [], [⟨0, [[]]⟩], none, false, true⟩] := by
  have hpreds := ((Built.empty "forked").addPredicate "A" [] none none rfl).addPredicate "B" []
    none none rfl
  have hbuilt : forked.Built := ((hpreds.addClause
    ⟨[], [], [(1, []), (0, []), (1, [])], none, false, true⟩ rfl).addClause
    ⟨[], [], [], some (0, []), false, true⟩ rfl).addClause
    ⟨[], [], [(0, [])], none, false, true⟩ rfl
  obtain ⟨hparts, -⟩ := hbuilt.splits
  obtain ⟨⟨sub, hsub, hpart⟩, -⟩ :=
    hparts ⟨2, [], [], [⟨0, [[]]⟩], none, false, true⟩ (by simp [forked]) rfl
  exact ⟨hbuilt, sub, hsub, hpart.preds, hpart.clauses⟩

end Instance
end Horn
