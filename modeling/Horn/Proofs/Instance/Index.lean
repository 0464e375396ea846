import Horn.Proofs.Instance.WellFormed

/-!
# The index of an instance

Clauses are numbered in their order, and the tables of an instance list, for each predicate, exactly
the clauses that have it on the left, and exactly those that conclude it, in ascending order
(`Instance.Indexed`). This holds of the empty instance, and adding a predicate or a clause and
setting a definition preserve it, so that it holds of every instance that has been built.
-/

namespace Horn

/-- The predicate that a clause concludes, if it has a conclusion. -/
def Clause.concludedPreds (c : Clause) : List Nat := c.conclusion.toList.map (·.1)

/-- The predicate of an application on the left is one of those on the left. -/
theorem Clause.mem_usedPreds {c : Clause} {a : Nat × List Term} (h : a ∈ c.apps) :
    a.1 ∈ c.usedPreds := by
  obtain ⟨u, hu, ha⟩ := List.mem_flatMap.1 h
  obtain ⟨args, -, rfl⟩ := List.mem_map.1 ha
  exact List.mem_map_of_mem hu

namespace Instance

variable {inst inst' : Instance}

/-- For each of `n` predicates, the clauses that mention it in one way or the other. -/
def indexOf (clauses : List Clause) (mentioned : Clause → List Nat) (n : Nat) : List (List Nat) :=
  (List.range n).map fun p => (clauses.filter fun c => p ∈ mentioned c).map (·.index)

/-- The clauses are numbered, and the tables list exactly the clauses of each predicate. -/
structure Indexed (inst : Instance) : Prop where
  index : inst.clauses.map (·.index) = List.range inst.clauses.length
  usedPreds : ∀ c ∈ inst.clauses, ∀ p ∈ c.usedPreds, p < inst.preds.length
  concludedPreds : ∀ c ∈ inst.clauses, ∀ p ∈ c.concludedPreds, p < inst.preds.length
  users : inst.users = indexOf inst.clauses Clause.usedPreds inst.preds.length
  producers : inst.producers = indexOf inst.clauses Clause.concludedPreds inst.preds.length

instance (inst : Instance) : Decidable inst.Indexed :=
  decidable_of_iff (inst.clauses.map (·.index) = List.range inst.clauses.length ∧
      (∀ c ∈ inst.clauses, ∀ p ∈ c.usedPreds, p < inst.preds.length) ∧
      (∀ c ∈ inst.clauses, ∀ p ∈ c.concludedPreds, p < inst.preds.length) ∧
      inst.users = indexOf inst.clauses Clause.usedPreds inst.preds.length ∧
      inst.producers = indexOf inst.clauses Clause.concludedPreds inst.preds.length)
    ⟨fun h => ⟨h.1, h.2.1, h.2.2.1, h.2.2.2.1, h.2.2.2.2⟩,
      fun h => ⟨h.index, h.usedPreds, h.concludedPreds, h.users, h.producers⟩⟩

/-! ### Building -/

theorem indexed_empty (name : String) : (empty name).Indexed :=
  ⟨rfl, List.forall_mem_nil _, List.forall_mem_nil _, rfl, rfl⟩

/-- A predicate that no clause mentions gets an empty list. -/
theorem indexOf_succ {clauses : List Clause} {mentioned : Clause → List Nat} {n : Nat}
    (h : ∀ c ∈ clauses, ∀ p ∈ mentioned c, p < n) :
    indexOf clauses mentioned (n + 1) = indexOf clauses mentioned n ++ [[]] := by
  have hnone : clauses.filter (fun c => n ∈ mentioned c) = [] := by
    rw [List.filter_eq_nil_iff]
    intro c hc hmem
    exact lt_irrefl n (h c hc n (of_decide_eq_true hmem))
  rw [indexOf, List.range_succ, List.map_append, List.map_singleton, hnone]
  rfl

/-- A clause is appended to the lists of the predicates that it mentions. -/
theorem indexOf_append (clauses : List Clause) (c : Clause) (mentioned : Clause → List Nat)
    (n : Nat) : indexOf (clauses ++ [c]) mentioned n =
      noteIndex (indexOf clauses mentioned n) (mentioned c) c.index := by
  refine List.ext_getElem (by simp [indexOf, noteIndex]) fun i hi hi' => ?_
  simp only [indexOf, noteIndex, List.getElem_map, List.getElem_range, List.getElem_zipIdx,
    List.filter_append, List.map_append, zero_add]
  split
  · next hmem => simp [hmem]
  · next hmem => simp [hmem]

theorem Indexed.insertPredicate (h : inst.Indexed) (q : Predicate) :
    (inst.insertPredicate q).Indexed := by
  have hlength : (inst.insertPredicate q).preds.length = inst.preds.length + 1 := by
    simp [Instance.insertPredicate]
  refine ⟨h.index, fun c hc p hp => ?_, fun c hc p hp => ?_, ?_, ?_⟩
  · have hlt := h.usedPreds c hc p hp
    omega
  · have hlt := h.concludedPreds c hc p hp
    omega
  · rw [hlength]
    exact (congrArg (· ++ [[]]) h.users).trans (indexOf_succ h.usedPreds).symm
  · rw [hlength]
    exact (congrArg (· ++ [[]]) h.producers).trans (indexOf_succ h.concludedPreds).symm

theorem Indexed.insertClause (h : inst.Indexed) {c : Clause} (hi : c.index = inst.clauses.length)
    (hused : ∀ p ∈ c.usedPreds, p < inst.preds.length)
    (hconcluded : ∀ p ∈ c.concludedPreds, p < inst.preds.length) :
    (inst.insertClause c).Indexed := by
  refine ⟨?_, ?_, ?_, ?_, ?_⟩
  · change (inst.clauses ++ [c]).map _ = List.range (inst.clauses ++ [c]).length
    rw [List.map_append, List.map_singleton, h.index, hi, List.length_append, List.length_singleton,
      List.range_succ]
  · change ∀ d ∈ inst.clauses ++ [c], _
    rw [List.forall_mem_append, List.forall_mem_singleton]
    exact ⟨h.usedPreds, hused⟩
  · change ∀ d ∈ inst.clauses ++ [c], _
    rw [List.forall_mem_append, List.forall_mem_singleton]
    exact ⟨h.concludedPreds, hconcluded⟩
  -- The two indices gain the number of the clause under the predicates that it mentions.
  · change noteIndex inst.users c.usedPreds c.index = _
    rw [h.users]
    exact (indexOf_append inst.clauses c Clause.usedPreds _).symm
  · change noteIndex inst.producers c.concludedPreds c.index = _
    rw [h.producers]
    exact (indexOf_append inst.clauses c Clause.concludedPreds _).symm

/-- Adding a predicate keeps the index exact. -/
theorem Indexed.addPredicate (h : inst.Indexed) {name : String} {sorts : List TermSort}
    {original : Option (List TermSort)} {positions : Option (List Int)}
    (ha : inst.addPredicate name sorts original positions = .ok inst') : inst'.Indexed := by
  unfold Instance.addPredicate at ha
  split at ha
  · cases ha
  · obtain ⟨q, -, ha⟩ := bind_eq_ok.1 ha
    cases ha
    exact h.insertPredicate q

/-- Adding a clause keeps the index exact. -/
theorem Indexed.addClause (h : inst.Indexed) {spec : ClauseSpec}
    (ha : inst.addClause spec = .ok inst') : inst'.Indexed := by
  obtain ⟨apps, conclusion, -, -, happs, hconclusion, rfl⟩ := addClause_eq_ok.1 ha
  have hlt : ∀ {a}, inst.Takes a → a.1 < inst.preds.length := by
    rintro a ⟨q, hq, -⟩
    exact (List.getElem?_eq_some_iff.1 hq).1
  refine h.insertClause rfl (fun p hp => ?_) fun p hp => ?_
  · have hgroup : p ∈ (Uses.group apps).map (·.pred) := hp
    rw [Uses.preds_group, List.mem_eraseDups] at hgroup
    obtain ⟨a, ha, rfl⟩ := List.mem_map.1 hgroup
    exact hlt (happs a ha)
  · obtain ⟨a, ha, rfl⟩ := List.mem_map.1 hp
    exact hlt (hconclusion a (Option.mem_toList.1 ha))

/-- Setting a definition does not concern the index. -/
theorem Indexed.setDefinition (h : inst.Indexed) {p : Int} {body : Term}
    {params : Option (List Constant)} (hs : inst.setDefinition p body params = .ok inst') :
    inst'.Indexed := by
  unfold Instance.setDefinition at hs
  split at hs
  · cases hs
  · cases hs
    refine ⟨h.index, ?_, ?_, ?_, ?_⟩
    all_goals dsimp only; rw [List.length_modify]
    · exact h.usedPreds
    · exact h.concludedPreds
    · exact h.users
    · exact h.producers

/-! ### Looking up -/

/-- A clause is listed for the predicate that it concludes. -/
theorem Indexed.mem_producers (h : inst.Indexed) {c : Clause} (hc : c ∈ inst.clauses) {p : Nat}
    (hp : p ∈ c.concludedPreds) {is : List Nat} (his : inst.producersOf p = .ok is) :
    c.index ∈ is := by
  unfold producersOf indexed at his
  rw [if_neg (by omega), Int.toNat_natCast, h.producers, indexOf, List.getElem?_map,
    List.getElem?_range (h.concludedPreds c hc p hp)] at his
  cases his
  exact List.mem_map_of_mem (List.mem_filter.2 ⟨hc, decide_eq_true hp⟩)

/-- A clause is found under its number. -/
theorem Indexed.getElem?_index (h : inst.Indexed) {c : Clause} (hc : c ∈ inst.clauses) :
    inst.clauses[c.index]? = some c := by
  obtain ⟨i, hi⟩ := List.getElem?_of_mem hc
  rw [index_iff.1 h.index i c hi, hi]

end Instance
end Horn
