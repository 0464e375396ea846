import Horn.Proofs.Split.Calls
import Horn.Proofs.Split.Priority

/-!
# Sessions with a splitter

A splitter is asked for the next clause (`Request.peek`) and for the next part (`Request.advance`),
in any order and any number of times. `Splitter.after` is the world after a list of requests, and
`Splitter.reply` is what is answered to one more; a request that fails leaves a world, too.

`exists_turns` is the run lemma: to each production of a session belongs a `Splitter.Turn`, with
its answer and its calls of the preprocessor. From it follow three results on whole sessions.

* `turns_of_succeeds`: if no call fails, the productions isolate each negative clause once, by
  descending priority, and a peek tells which clause is next.
* `pending_isolated_failed`: whatever fails, the negative clauses are those still pending, those
  isolated, and those on which the preprocessor has failed. A clause of the last kind is not
  pending any more, so that it is neither isolated later nor told from a handled one
  (`advance_drops`).
* `isolates_by_priority`: which of two negative clauses is isolated first, in terms of their
  priorities and numbers, and what the score by connectivity counts.
-/

namespace Horn

namespace Splitter

variable {κ : Type}

/-! ### Requests -/

/-- What a splitter can be asked for. -/
inductive Request where
  | peek
  | advance
  deriving DecidableEq

/-- What a splitter answers. -/
inductive Reply where
  | info (next : Option SplitInfo)
  | part (produced : Option Reduced)

/-- Answers a request. -/
def respond (p : Preprocessor κ) : Request → Act (Splitter κ) Reply
  | .peek => do pure (.info (← get).peek)
  | .advance => do pure (.part (← advance p))

/-- The world after some requests, whether or not they fail. -/
def after (p : Preprocessor κ) (w : World (Splitter κ)) (requests : List Request) :
    World (Splitter κ) :=
  requests.foldl (fun w r => ((respond p r).runFrom w).2) w

/-- The answer to a request after some others. -/
def reply (p : Preprocessor κ) (w : World (Splitter κ)) (before : List Request) (r : Request) :
    Except Fault Reply :=
  ((respond p r).runFrom (after p w before)).1

/-- The number of productions that are asked for. -/
def advances (requests : List Request) : Nat := requests.count .advance

section Requests

variable (p : Preprocessor κ) (w : World (Splitter κ))

@[simp] theorem after_nil : after p w [] = w := rfl

theorem after_concat (requests : List Request) (r : Request) :
    after p w (requests ++ [r]) = ((respond p r).runFrom (after p w requests)).2 := by
  simp [after]

/-- A peek changes nothing. -/
theorem after_peek (requests : List Request) :
    after p w (requests ++ [.peek]) = after p w requests := after_concat p w requests .peek

theorem reply_peek (requests : List Request) :
    reply p w requests .peek = .ok (.info (after p w requests).1.peek) := rfl

theorem after_advance (requests : List Request) :
    after p w (requests ++ [.advance]) = ((advance p).runFrom (after p w requests)).2 := by
  rw [after_concat]
  change ((advance p >>= fun r => pure (Reply.part r)).runFrom _).2 = _
  rw [bind_pure_comp, Act.runFrom_map]

theorem reply_advance (requests : List Request) :
    reply p w requests .advance = ((advance p).runFrom (after p w requests)).1.map .part := by
  change ((advance p >>= fun r => pure (Reply.part r)).runFrom _).1 = _
  rw [bind_pure_comp, Act.runFrom_map]

end Requests

@[simp] theorem advances_nil : advances [] = 0 := rfl

@[simp] theorem advances_peek (requests : List Request) :
    advances (requests ++ [.peek]) = advances requests := by
  simp [advances]

@[simp] theorem advances_advance (requests : List Request) :
    advances (requests ++ [.advance]) = advances requests + 1 := by
  simp [advances]

/-- A prefix of a list with one more item is one of the list, or all of it. -/
theorem prefix_concat {requests before : List Request} {r s : Request}
    (h : before ++ [s] <+: requests ++ [r]) :
    before ++ [s] <+: requests ∨ before = requests ∧ s = r := by
  rcases List.prefix_concat_iff.1 h with h | h
  · obtain ⟨h₁, h₂⟩ := List.append_inj' h rfl
    exact .inr ⟨h₁, List.head_eq_of_cons_eq h₂⟩
  · exact .inl h

/-! ### Runs -/

/-- The productions of a session, one for each request for a part: with its answer, and with the
calls that the preprocessor gets, in all parts of the session. -/
structure Turns (p : Preprocessor κ) (w : World (Splitter κ)) (requests : List Request)
    (turns : List Turn) : Prop where
  length : turns.length = advances requests
  answer : ∀ before, before ++ [.advance] <+: requests →
    ∃ t, turns[advances before]? = some t ∧ reply p w before .advance = t.answer.map .part
  calls : ∀ before, before <+: requests →
    Reduction.Calls p w.1.preprocessor ((turns.take (advances before)).flatMap Turn.calls)
      (after p w before).1.preprocessor

/-- What a production is, given the ones before it. -/
structure Fits (inst : Instance) (config : SplitConfig) (before : List Turn) (t : Turn) : Prop where
  due : ∃ n, t.Due inst config (before.flatMap Turn.calls) before.length (inst.held n)
  clauses : (before.flatMap Turn.calls).map (·.clause) = (order inst config).take before.length

/-- Of a split instance, one clause after the other is isolated, until none is left. -/
theorem Fits.of_splits {inst : Instance} {config : SplitConfig} {before : List Turn} {t : Turn}
    (h : Fits inst config before t) (hsplits : Splits inst config) :
    (t = .spent ∧ (order inst config).length ≤ before.length) ∨
      ∃ c n, t = .call c ∧ (order inst config)[before.length]? = some c.clause ∧
        c.top = inst.held n ∧ c.excluded = Reduction.isolated (before.flatMap Turn.calls) := by
  have hagenda : agenda inst config = (order inst config).map some := if_pos hsplits
  obtain ⟨n, hdue⟩ := h.due
  cases t with
  | spent =>
    have hlength : (agenda inst config).length ≤ before.length := hdue
    rw [hagenda, List.length_map] at hlength
    exact .inl ⟨rfl, hlength⟩
  | whole =>
    -- The instance itself is not on the agenda.
    have hitem : (agenda inst config)[before.length]? = some none := hdue
    rw [hagenda, List.getElem?_map] at hitem
    obtain ⟨i, -, hi⟩ := Option.map_eq_some_iff.1 hitem
    cases hi
  | call c =>
    obtain ⟨hitem, hexcluded, htop⟩ := hdue
    exact .inr ⟨c, n, rfl, order_getElem? hitem, htop, hexcluded⟩

/-- An instance that is not split is the first production, and the only one. -/
theorem Fits.of_not_splits {inst : Instance} {config : SplitConfig} {before : List Turn} {t : Turn}
    (h : Fits inst config before t) (hnot : ¬Splits inst config) :
    t = if before.length = 0 then .whole else .spent := by
  -- The agenda has one item, the whole instance, so all turns after the first find it spent.
  have hagenda : agenda inst config = [none] := if_neg hnot
  obtain ⟨n, hdue⟩ := h.due
  cases t with
  | spent =>
    have hlength : (agenda inst config).length ≤ before.length := hdue
    rw [hagenda, List.length_singleton] at hlength
    rw [if_neg (Nat.ne_of_gt hlength)]
  | whole =>
    have hitem : (agenda inst config)[before.length]? = some none := hdue
    have hzero : before.length = 0 := by
      rw [hagenda, List.getElem?_singleton] at hitem
      split at hitem
      · assumption
      · cases hitem
    rw [if_pos hzero]
  | call c =>
    have hclause := order_getElem? hdue.1
    rw [order_of_not_splits hnot] at hclause
    cases hclause

/-- **The run lemma.** Each production of a session is the one that is due. -/
theorem exists_turns (p : Preprocessor κ) (inst : Instance) (config : SplitConfig) (v₀ : κ)
    (log : Log) (requests : List Request) :
    ∃ turns, Turns p (create inst config v₀, log) requests turns ∧
      Stands p inst config ⟨v₀, 0⟩ (turns.flatMap Turn.calls) turns.length
        (after p (create inst config v₀, log) requests).1 ∧
      ∀ i t, turns[i]? = some t → Fits inst config (turns.take i) t := by
  induction requests using List.reverseRecOn with
  | nil =>
    refine ⟨[], ⟨rfl, fun before h => ?_, fun before h => ?_⟩, stands_create p inst config v₀,
      fun i t h => nomatch h⟩
    · simp at h
    · rw [List.prefix_nil.1 h]
      exact .none _
  | append_singleton requests r ih =>
    obtain ⟨turns, hturns, hstands, hfits⟩ := ih
    cases r with
    | peek =>
      -- Nothing is produced.
      refine ⟨turns, ⟨?_, fun before h => ?_, fun before h => ?_⟩, ?_, hfits⟩
      · rw [advances_peek]
        exact hturns.length
      · rcases prefix_concat h with h | ⟨-, h⟩
        · exact hturns.answer before h
        · cases h
      · rcases List.prefix_concat_iff.1 h with rfl | h
        · rw [after_peek, advances_peek]
          exact hturns.calls requests (List.prefix_refl _)
        · exact hturns.calls before h
      · rw [after_peek]
        exact hstands
    | advance =>
      obtain ⟨t, s', log', hrun, htakes⟩ := exists_takes p hstands.isOpen
      have hnext := hstands.next htakes
      have hlength : (turns ++ [t]).length = advances (requests ++ [.advance]) := by
        rw [List.length_append, hturns.length, advances_advance]
        rfl
      have hcalls : (turns ++ [t]).flatMap Turn.calls = turns.flatMap Turn.calls ++ t.calls := by
        simp
      refine ⟨turns ++ [t], ⟨hlength, fun before h => ?_, fun before h => ?_⟩, ?_, fun i u h => ?_⟩
      · rcases prefix_concat h with h | ⟨rfl, -⟩
        · obtain ⟨u, hu, hreply⟩ := hturns.answer before h
          exact ⟨u, List.getElem?_append_left (List.getElem?_eq_some_iff.1 hu).1 ▸ hu, hreply⟩
        · refine ⟨t, ?_, ?_⟩
          · rw [← hturns.length, List.getElem?_concat_length]
          · rw [reply_advance, hrun]
      · rcases List.prefix_concat_iff.1 h with rfl | h
        · rw [after_advance, hrun, ← hlength, List.take_length, hcalls]
          exact hnext.made
        · have hle : advances before ≤ turns.length := by
            rw [hturns.length]
            exact h.sublist.count_le _
          rw [List.take_append_of_le_length hle]
          exact hturns.calls before h
      · rw [after_advance, hrun, hcalls, List.length_append]
        exact hnext
      · rw [List.getElem?_append] at h
        split at h
        · next hi =>
          rw [List.take_append_of_le_length (Nat.le_of_lt hi)]
          exact hfits i u h
        · next hi =>
          -- This is the last production.
          obtain ⟨rfl, hlast⟩ : i = turns.length ∧ t = u := by
            rw [List.getElem?_singleton] at h
            split at h
            · exact ⟨by omega, Option.some.inj h⟩
            · cases h
          subst hlast
          rw [List.take_left]
          obtain ⟨n, hn⟩ := hstands.top
          have hdue := hstands.turn htakes
          rw [hn] at hdue
          exact ⟨⟨_, hdue⟩, hstands.clauses⟩

/-! ### Sessions without failures -/

/-- A session that isolates the clauses of the order one after the other, and each of them once. -/
structure InOrder (p : Preprocessor κ) (inst : Instance) (config : SplitConfig)
    (w : World (Splitter κ)) (requests : List Request) (turns : List Turn) : Prop where
  session : Turns p w requests turns
  /-- A peek changes nothing. It tells the clause that is next, how many clauses have been isolated
  before it, and the number of all. -/
  peek : ∀ before, before ++ [.peek] <+: requests →
    after p w (before ++ [.peek]) = after p w before ∧
      reply p w before .peek = .ok (.info (((order inst config)[advances before]?).map fun c =>
        ⟨c, advances before, (order inst config).length⟩))
  /-- Each clause of the order is handed to the preprocessor once, together with the instance and
  the clauses before it. -/
  isolates : ∀ i clause t, (order inst config)[i]? = some clause → turns[i]? = some t →
    ∃ c n, t = .call c ∧ c.clause = clause ∧ c.top = inst.held n ∧ c.excluded.Pairwise (· < ·) ∧
      ∀ j, j ∈ c.excluded ↔ j ∈ (order inst config).take i
  /-- After the last clause nothing is produced any more. -/
  spent : Splits inst config → ∀ i t, (order inst config).length ≤ i → turns[i]? = some t →
    t = .spent
  /-- An instance that is not split is produced itself, once. -/
  whole : ¬Splits inst config → ∀ i t, turns[i]? = some t →
    t = if i = 0 then .whole else .spent

/-- Each production belongs to a request. -/
theorem exists_prefix {requests : List Request} {i : Nat} (h : i < advances requests) :
    ∃ before, before ++ [.advance] <+: requests ∧ advances before = i := by
  induction requests using List.reverseRecOn with
  | nil => cases h
  | append_singleton requests r ih =>
    by_cases hi : i < advances requests
    · obtain ⟨before, hbefore, hcount⟩ := ih hi
      exact ⟨before, hbefore.trans (List.prefix_append _ _), hcount⟩
    · -- The production is the last one.
      cases r with
      | peek =>
        rw [advances_peek] at h
        exact absurd h hi
      | advance =>
        rw [advances_advance] at h
        exact ⟨requests, List.prefix_refl _, by omega⟩

/-- The productions of a session in which no request fails do not fail. -/
theorem Turns.isOk {p : Preprocessor κ} {w : World (Splitter κ)} {requests : List Request}
    {turns : List Turn} (h : Turns p w requests turns)
    (hok : ∀ before, before ++ [.advance] <+: requests → (reply p w before .advance).isOk = true)
    {t : Turn} (ht : t ∈ turns) {c : Reduction} (hc : c ∈ t.calls) : c.answer.isOk = true := by
  obtain ⟨i, hi⟩ := List.mem_iff_getElem?.1 ht
  have hlt : i < advances requests := by
    rw [← h.length]
    exact (List.getElem?_eq_some_iff.1 hi).1
  obtain ⟨before, hbefore, rfl⟩ := exists_prefix hlt
  obtain ⟨u, hu, hreply⟩ := h.answer before hbefore
  have hanswer := hok before hbefore
  rw [hi, Option.some.injEq] at hu
  rw [hreply, ← hu] at hanswer
  cases t with
  | call d =>
    rw [Turn.calls_call, List.mem_singleton] at hc
    subst hc
    -- A failure of the preprocessor would be one of the request.
    cases hc : c.answer with
    | error e =>
      rw [Turn.answer, Reduction.produced, hc] at hanswer
      cases hanswer
    | ok r => rfl
  | _ => cases hc

/-- **Sessions without failures.** If no call of the preprocessor fails, the negative clauses are
isolated by descending priority, each of them once. -/
theorem turns_of_succeeds (p : Preprocessor κ) (inst : Instance) (config : SplitConfig) (v₀ : κ)
    (log : Log) (requests : List Request)
    (hok : ∀ before, before ++ [.advance] <+: requests →
      (reply p (create inst config v₀, log) before .advance).isOk = true) :
    (Splits inst config → ∃ cs : List Clause, cs.Perm (inst.clauses.filter (·.isNegative)) ∧
        order inst config = cs.map (·.index) ∧ cs.Pairwise fun c d =>
          (inst.priority config.sort d).le (inst.priority config.sort c) = true) ∧
      ∃ turns, InOrder p inst config (create inst config v₀, log) requests turns := by
  refine ⟨fun hsplits => ?_, ?_⟩
  · refine ⟨(inst.sortedClauses config.sort).reverse,
      (List.reverse_perm _).trans (inst.sortedClauses_perm config.sort), ?_,
      List.pairwise_reverse.2 (inst.pairwise_le_sortedClauses config.sort)⟩
    rw [order_of_splits hsplits, inst.splitOrder_eq, List.map_reverse]
  obtain ⟨turns, hturns, -, hfits⟩ := exists_turns p inst config v₀ log requests
  have hlength : ∀ {i : Nat} {t : Turn}, turns[i]? = some t → (turns.take i).length = i :=
    fun ht => List.length_take_of_le (Nat.le_of_lt (List.getElem?_eq_some_iff.1 ht).1)
  refine ⟨turns, hturns, fun before h => ⟨after_peek _ _ _, ?_⟩, fun i clause t hi ht => ?_,
    fun hsplits i t hi ht => ?_, fun hnot i t ht => ?_⟩
  · -- The state before the peek is the one after a session, too.
    obtain ⟨turns', hturns', hstands, -⟩ := exists_turns p inst config v₀ log before
    rw [reply_peek, hstands.peek_eq, hturns'.length]
  · have hsplits : Splits inst config := by
      by_contra hnot
      rw [order_of_not_splits hnot] at hi
      cases hi
    have hbefore := (hfits i t ht).clauses
    rcases (hfits i t ht).of_splits hsplits with ⟨-, hspent⟩ | ⟨c, n, hc, hitem, htop, hexc⟩
    · rw [hlength ht] at hspent
      exact absurd (List.getElem?_eq_some_iff.1 hi).1 (Nat.not_lt.2 hspent)
    · rw [hlength ht] at hitem hbefore
      rw [hi, Option.some.injEq] at hitem
      refine ⟨c, n, hc, hitem.symm, htop, hexc ▸ Reduction.pairwise_isolated _, fun j => ?_⟩
      rw [hexc, Reduction.mem_isolated, ← hbefore, List.mem_map]
      constructor
      · rintro ⟨d, hd, -, hj⟩
        exact ⟨d, hd, hj⟩
      · rintro ⟨d, hd, hj⟩
        obtain ⟨u, hu, hdu⟩ := List.mem_flatMap.1 hd
        exact ⟨d, hd, hturns.isOk hok (List.mem_of_mem_take hu) hdu, hj⟩
  · rcases (hfits i t ht).of_splits hsplits with ⟨hspent, -⟩ | ⟨c, n, -, hitem, -⟩
    · exact hspent
    · rw [hlength ht, List.getElem?_eq_none hi] at hitem
      cases hitem
  · rw [(hfits i t ht).of_not_splits hnot, hlength ht]

/-- A preprocessor that counts its calls. It fails on some clauses, and for any other clause it
hands back the instance itself. -/
def refusing (refused : List Int) : Preprocessor Nat where
  reduce _ clause _ := do
    modify fun v => { v with own := v.own + 1 }
    if clause ∈ refused then throw (Fault.collaborator "RuntimeError" "refused") else pure .whole

/-- A fact, and three negative clauses of different priorities. -/
def ranked : Instance where
  name := "ranked"
  preds := [⟨"P", [.int], [.int], [0], none⟩]
  clauses := [
    ⟨0, [], [], [], some (0, [.int 0]), false, true⟩,
    ⟨1, [], [], [⟨0, [[.int 1]]⟩], none, false, false⟩,
    ⟨2, [], [], [⟨0, [[.int 2]]⟩], none, false, true⟩,
    ⟨3, [], [], [⟨0, [[.int 3]]⟩], none, true, true⟩]
  users := [[1, 2, 3]]
  producers := [[0]]
  holders := 0
  expansions := []

/-- The world in which a session on the three clauses starts. -/
def rankedStart : World (Splitter Nat) := (create ranked .default 0, [])

/-- The clauses are in the table by ascending priority. -/
theorem rankedStart_eq :
    rankedStart = (⟨ranked.retain, true, .active [1, 2, 3] 3, [], 3, ⟨0, 0⟩⟩, []) := by
  unfold rankedStart create
  rw [start_of_pairwise rfl (by decide) (by decide)]
  rfl

/-- Some peeks, and one production more than there are clauses. -/
def rankedRequests : List Request :=
  [.peek, .advance, .advance, .peek, .peek, .advance, .advance, .peek]

/-- No request fails if no clause is refused, and there are three calls. -/
theorem turns_of_succeeds_ranked :
    (∀ before, before ++ [.advance] <+: rankedRequests →
        (reply (refusing []) (create ranked .default 0, []) before .advance).isOk = true) ∧
      (∃ turns, InOrder (refusing []) ranked .default (create ranked .default 0, []) rankedRequests
        turns) ∧
      (after (refusing []) rankedStart rankedRequests).1.preprocessor.own = 3 := by
  have hall : ∀ before ∈ rankedRequests.inits,
      (reply (refusing []) rankedStart before .advance).isOk = true := by
    rw [rankedStart_eq]
    decide +kernel
  have hok : ∀ before, before ++ [.advance] <+: rankedRequests →
      (reply (refusing []) (create ranked .default 0, []) before .advance).isOk = true :=
    fun before h => hall before ((List.mem_inits _ _).2 ((List.prefix_append _ _).trans h))
  refine ⟨hok, (turns_of_succeeds (refusing []) ranked .default 0 [] rankedRequests hok).2, ?_⟩
  rw [rankedStart_eq]
  decide +kernel

/-! ### Sessions with failures -/

/-- The clauses on which the preprocessor has failed. -/
def failed (turns : List Turn) : List Nat :=
  ((turns.flatMap Turn.calls).filter (!·.answer.isOk)).map (·.clause)

/-- A clause is one on which the preprocessor has failed if some request has failed with it. -/
theorem Turns.mem_failed {p : Preprocessor κ} {w : World (Splitter κ)} {requests : List Request}
    {turns : List Turn} (h : Turns p w requests turns) {i : Nat} :
    i ∈ failed turns ↔ ∃ before cause, before ++ [.advance] <+: requests ∧
      reply p w before .advance = .error (.splitting i cause) := by
  constructor
  · intro hi
    obtain ⟨c, hc, rfl⟩ := List.mem_map.1 hi
    obtain ⟨hc, hbad⟩ := List.mem_filter.1 hc
    obtain ⟨t, ht, hct⟩ := List.mem_flatMap.1 hc
    obtain ⟨k, hk⟩ := List.mem_iff_getElem?.1 ht
    have hlt : k < advances requests := by
      rw [← h.length]
      exact (List.getElem?_eq_some_iff.1 hk).1
    obtain ⟨before, hbefore, rfl⟩ := exists_prefix hlt
    obtain ⟨u, hu, hreply⟩ := h.answer before hbefore
    rw [hk, Option.some.injEq] at hu
    subst hu
    cases t with
    | call d =>
      rw [Turn.calls_call, List.mem_singleton] at hct
      subst hct
      cases hanswer : c.answer with
      | error cause =>
        refine ⟨before, cause, hbefore, ?_⟩
        rw [hreply, Turn.answer, Reduction.produced, hanswer]
        rfl
      | ok r =>
        rw [hanswer] at hbad
        cases hbad
    | _ => cases hct
  · rintro ⟨before, cause, hbefore, hfails⟩
    obtain ⟨t, ht, hreply⟩ := h.answer before hbefore
    rw [hreply] at hfails
    cases t with
    | call c =>
      rw [Turn.answer, Reduction.produced] at hfails
      cases hanswer : c.answer with
      | error e =>
        rw [hanswer] at hfails
        -- The clause of the failure is the one of the call.
        have hclause : (c.clause : Int) = i := (Fault.splitting.inj (Except.error.inj hfails)).1
        refine List.mem_map.2 ⟨c, List.mem_filter.2 ⟨?_, ?_⟩, Int.ofNat.inj hclause⟩
        · exact List.mem_flatMap.2 ⟨_, List.mem_of_getElem? ht, List.mem_singleton.2 rfl⟩
        · rw [hanswer]
          rfl
      | ok r =>
        rw [hanswer] at hfails
        cases hfails
    | _ => cases hfails

/-- Each negative clause is pending, or it is isolated, or the preprocessor has failed on it; the
clauses that a peek counts as handled are those of the last two kinds. -/
structure Accounts (inst : Instance) (s : Splitter κ) (pending failed : List Nat) : Prop where
  progress : s.progress = .active pending inst.negClauses.length
  perm : (pending ++ s.isolated ++ failed).Perm inst.negClauses
  nodup : (pending ++ s.isolated ++ failed).Nodup
  peek : s.peek = pending.getLast?.map fun c =>
    ⟨c, s.isolated.length + failed.length, inst.negClauses.length⟩

/-- The order of a split instance is one of its negative clauses. -/
theorem order_perm {inst : Instance} {config : SplitConfig} (h : Splits inst config) :
    (order inst config).Perm inst.negClauses := by
  rw [order_of_splits h]
  exact (List.reverse_perm _).trans (inst.splitOrder_perm config.sort)

theorem Stands.accounts {p : Preprocessor κ} {inst : Instance} {config : SplitConfig}
    {v₀ : Visitor κ} {turns : List Turn} {s : Splitter κ} (hinst : inst.Indexed)
    (hsplits : Splits inst config)
    (h : Stands p inst config v₀ (turns.flatMap Turn.calls) turns.length s) :
    Accounts inst s ((order inst config).drop turns.length).reverse (failed turns) := by
  have horder := order_perm hsplits
  have hnodup : (order inst config).Nodup := horder.nodup_iff.2 hinst.nodup_negClauses
  have hisolated : s.isolated.Perm
      (((turns.flatMap Turn.calls).filter (·.answer.isOk)).map (·.clause)) := by
    rw [h.isolated]
    apply Reduction.isolated_perm
    rw [h.clauses]
    exact hnodup.sublist (List.take_sublist _ _)
  -- The calls that did not fail and those that did are all calls.
  have hcalled : (s.isolated ++ failed turns).Perm ((order inst config).take turns.length) := by
    rw [← h.clauses]
    refine (hisolated.append_right _).trans ?_
    rw [failed, ← List.map_append]
    exact (List.filter_append_perm _ _).map _
  have hperm : (((order inst config).drop turns.length).reverse ++ s.isolated ++
      failed turns).Perm inst.negClauses := by
    rw [List.append_assoc]
    refine ((List.reverse_perm _).append hcalled).trans (List.perm_append_comm.trans ?_)
    rw [List.take_append_drop]
    exact horder
  refine ⟨?_, hperm, hperm.nodup_iff.2 hinst.nodup_negClauses, ?_⟩
  · rw [h.progress, progressAfter_of_splits hsplits, horder.length_eq]
  · rw [h.peek_eq, List.getLast?_reverse, List.head?_drop, ← horder.length_eq]
    cases hi : (order inst config)[turns.length]? with
    | none => rfl
    | some i =>
      have hlt : turns.length < (order inst config).length := (List.getElem?_eq_some_iff.1 hi).1
      have hcount : s.isolated.length + (failed turns).length = turns.length := by
        rw [← List.length_append, hcalled.length_eq, List.length_take_of_le (Nat.le_of_lt hlt)]
      rw [hcount]

/-- A production of nothing is the one that finds nothing pending. -/
theorem Takes.answer_eq_none {p : Preprocessor κ} {s s' : Splitter κ} {t : Turn}
    (h : Takes p s t s') {pending : List Nat} {total : Nat}
    (hs : s.progress = .active pending total) : t.answer = .ok none ↔ pending = [] := by
  cases h with
  | spent hnone =>
    rw [hs, Progress.agenda, List.map_eq_nil_iff, List.reverse_eq_nil_iff] at hnone
    exact ⟨fun _ => hnone, fun _ => rfl⟩
  | whole hprog =>
    rw [hs] at hprog
    cases hprog
  | @call c rest _ _ hprog _ _ _ =>
    rw [hs, Progress.active.injEq] at hprog
    rw [hprog.1, Turn.answer, Reduction.produced]
    constructor
    · intro h
      cases hc : c.answer <;> (rw [hc] at h; cases h)
    · intro h
      simp at h

/-- A production that fails takes its clause off, and isolates nothing. -/
theorem Takes.of_error {p : Preprocessor κ} {s s' : Splitter κ} {t : Turn} (h : Takes p s t s')
    {e : Fault} (he : t.answer = .error e) :
    ∃ (pending : List Nat) (clause total : Nat) (cause : Fault),
      s.progress = .active (pending ++ [clause]) total ∧ e = .splitting clause cause ∧
        s'.progress = .active pending total ∧ s'.isolated = s.isolated := by
  cases h with
  | spent _ => cases he
  | whole _ => cases he
  | @call c pending total _ hprog _ _ _ =>
    rw [Turn.answer, Reduction.produced] at he
    rcases hc : c.answer with cause | r
    · rw [hc] at he
      exact ⟨pending, c.clause, total, cause, hprog, (Except.error.inj he).symm, rfl, rfl⟩
    · rw [hc] at he
      cases he

/-- **Sessions with failures.** Each negative clause is pending, isolated, or one on which a request
has failed. A request finds nothing more to produce once no clause is pending. One that fails takes
its clause off the pending ones without isolating it, so that no clause is lost exactly if no
request has failed. -/
theorem pending_isolated_failed (p : Preprocessor κ) {inst : Instance} (hinst : inst.Indexed)
    {config : SplitConfig} (hsplits : Splits inst config) (v₀ : κ) (log : Log)
    (requests : List Request) :
    ∃ pending failed : List Nat,
      Accounts inst (after p (create inst config v₀, log) requests).1 pending failed ∧
      (∀ i, i ∈ failed ↔ ∃ before cause, before ++ [.advance] <+: requests ∧
        reply p (create inst config v₀, log) before .advance = .error (.splitting i cause)) ∧
      (reply p (create inst config v₀, log) requests .advance = .ok (.part none) ↔ pending = []) ∧
      (∀ e, reply p (create inst config v₀, log) requests .advance = .error e →
        ∃ (rest : List Nat) (clause : Nat) (cause : Fault),
          pending = rest ++ [clause] ∧ e = .splitting clause cause ∧
          (after p (create inst config v₀, log) (requests ++ [.advance])).1.progress =
            .active rest inst.negClauses.length ∧
          (after p (create inst config v₀, log) (requests ++ [.advance])).1.isolated =
            (after p (create inst config v₀, log) requests).1.isolated) ∧
      ((pending ++ (after p (create inst config v₀, log) requests).1.isolated).Perm
        inst.negClauses ↔ failed = []) := by
  obtain ⟨turns, hturns, hstands, -⟩ := exists_turns p inst config v₀ log requests
  have haccounts := hstands.accounts hinst hsplits
  obtain ⟨t, s', log', hrun, htakes⟩ := exists_takes p hstands.isOpen
  refine ⟨_, failed turns, haccounts, fun i => hturns.mem_failed, ?_, fun e he => ?_, ?_⟩
  · rw [reply_advance, hrun, ← htakes.answer_eq_none haccounts.progress]
    cases t.answer with
    | error e => exact ⟨nofun, nofun⟩
    | ok part =>
      constructor
      · intro h
        cases h
        rfl
      · intro h
        cases h
        rfl
  · have hanswer : t.answer = .error e := by
      rw [reply_advance, hrun] at he
      cases ht : t.answer with
      | error e' =>
        rw [ht] at he
        exact congrArg Except.error (Except.error.inj he)
      | ok part =>
        rw [ht] at he
        cases he
    obtain ⟨rest, clause, total, cause, hprog, rfl, hprog', hisolated⟩ := htakes.of_error hanswer
    rw [haccounts.progress, Progress.active.injEq] at hprog
    obtain ⟨hpending, rfl⟩ := hprog
    refine ⟨rest, clause, cause, hpending, rfl, ?_, ?_⟩
    · rw [after_advance, hrun]
      exact hprog'
    · rw [after_advance, hrun]
      exact hisolated
  · constructor
    · intro h
      -- All clauses are accounted for without the ones that have failed.
      have hlength := h.length_eq.trans haccounts.perm.length_eq.symm
      simp only [List.length_append] at hlength
      exact List.length_eq_zero_iff.1 (by omega)
    · intro h
      have hperm := haccounts.perm
      rw [h, List.append_nil] at hperm
      exact hperm

/-- The second request for a part fails, on a clause that is then neither pending nor isolated. -/
theorem pending_isolated_failed_ranked :
    ranked.Indexed ∧ Splits ranked .default ∧ ∃ pending failed : List Nat,
      Accounts ranked (after (refusing [2]) (create ranked .default 0, []) rankedRequests).1 pending
        failed ∧ 2 ∈ failed := by
  have hinst : ranked.Indexed := by decide
  have hsplits : Splits ranked .default := by decide
  obtain ⟨pending, failed, haccounts, hfailed, -⟩ :=
    pending_isolated_failed (refusing [2]) hinst hsplits 0 [] rankedRequests
  have hreply : reply (refusing [2]) rankedStart [.peek, .advance] .advance =
      .error (.splitting 2 (.collaborator "RuntimeError" "refused")) := by
    rw [rankedStart_eq]
    rfl
  have hmem : 2 ∈ failed := (hfailed 2).2 ⟨[.peek, .advance], _, by decide, hreply⟩
  exact ⟨hinst, hsplits, pending, failed, haccounts, hmem⟩

/-- A production that fails on the clause with the greatest priority. The clause is neither pending
nor isolated after it, and is counted as handled. When the other clauses have been isolated nothing
more is produced. -/
theorem advance_drops :
    ranked.negClauses = [1, 2, 3] ∧
      reply (refusing [3]) rankedStart [] .advance =
        .error (.splitting 3 (.collaborator "RuntimeError" "refused")) ∧
      (after (refusing [3]) rankedStart [.advance]).1.progress = .active [1, 2] 3 ∧
      (after (refusing [3]) rankedStart [.advance]).1.isolated = [] ∧
      (after (refusing [3]) rankedStart [.advance]).1.peek = some ⟨2, 1, 3⟩ ∧
      reply (refusing [3]) rankedStart [.advance, .advance, .advance] .advance = .ok (.part none) ∧
      (after (refusing [3]) rankedStart [.advance, .advance, .advance]).1.isolated = [1, 2] := by
  rw [rankedStart_eq]
  refine ⟨rfl, rfl, rfl, rfl, rfl, rfl, rfl⟩

/-! ### Sessions by priority -/

/-- What decides which of two negative clauses is isolated first. -/
structure ByPriority (inst : Instance) : Prop where
  /-- The list of the splits has each negative clause once. -/
  perm : ∀ byConnectivity, (inst.splitOrder byConnectivity).Perm inst.negClauses
  /-- In any session, the clauses of the list are handed to the preprocessor from its end. -/
  calls : ∀ {κ : Type} (p : Preprocessor κ) (config : SplitConfig) (v₀ : κ) (log : Log)
    (requests : List Request), Splits inst config →
      ∃ turns, Turns p (create inst config v₀, log) requests turns ∧
        (turns.flatMap Turn.calls).map (·.clause) =
          (inst.splitOrder config.sort).reverse.take turns.length
  /-- What comes later in the list has the greater priority in lexicographic order, or the same
  priority and the larger number. -/
  later : ∀ byConnectivity, ∀ c ∈ inst.clauses, ∀ d ∈ inst.clauses,
    c.conclusion = none → d.conclusion = none →
      ((inst.splitOrder byConnectivity).idxOf d.index <
          (inst.splitOrder byConnectivity).idxOf c.index ↔
        inst.rank byConnectivity d < inst.rank byConnectivity c ∨
          inst.rank byConnectivity d = inst.rank byConnectivity c ∧ d.index < c.index)
  /-- Without connectivity the score is the negated number. -/
  number : ∀ c, inst.score false c = -(c.index : ℤ)
  /-- Of clauses that are alike, the one with the smaller number is isolated first. -/
  alike : ∀ c ∈ inst.clauses, ∀ d ∈ inst.clauses, c.conclusion = none → d.conclusion = none →
    c.strict = d.strict → c.fromUnrolling = d.fromUnrolling →
      ((inst.splitOrder false).idxOf d.index < (inst.splitOrder false).idxOf c.index ↔
        c.index < d.index)
  /-- By connectivity the score adds up, over the predicates on the left that come after the last
  one that a clause without predicates on the left concludes, the numbers of clauses with a
  conclusion that have the predicate on the left. -/
  connectivity : ∀ c ∈ inst.clauses, ∃ before after n, c.usedPreds = before ++ after ∧
    (∀ p ∈ before.getLast?, inst.Backed p) ∧ (∀ p ∈ after, ¬inst.Backed p) ∧
    n = (after.map inst.continuations).sum ∧ inst.clauseScore c.index = .ok n ∧
    inst.score true c = n
  /-- The predicates on the left are in the order in which they occur first. -/
  usedPreds : ∀ spec inst', inst.addClause spec = .ok inst' →
    ∃ c, inst'.clauses = inst.clauses ++ [c] ∧
      c.usedPreds = (spec.apps.map (·.1.toNat)).eraseDups

/-- **The order of isolation.** Negative clauses are isolated by descending priority. -/
theorem isolates_by_priority {inst : Instance} (hinst : inst.Indexed) : ByPriority inst where
  perm := inst.splitOrder_perm
  calls p config v₀ log requests hsplits := by
    obtain ⟨turns, hturns, hstands, -⟩ := exists_turns p inst config v₀ log requests
    refine ⟨turns, hturns, ?_⟩
    rw [hstands.clauses, order_of_splits hsplits]
  later b c hc d hd hcneg hdneg := Instance.idxOf_splitOrder hinst hd hc hdneg hcneg
  number := inst.score_false
  alike c hc d hd hcneg hdneg hstrict hunrolling := by
    have hclass : d.isStrictNegative = c.isStrictNegative := by
      rw [Clause.isStrictNegative, Clause.isStrictNegative, hcneg, hdneg, hstrict]
    rw [Instance.idxOf_splitOrder hinst hd hc hdneg hcneg]
    exact Instance.before_false_iff hclass hunrolling.symm
  connectivity c hc := by
    obtain ⟨before, after, hused, hbefore, hafter, hsum⟩ := Instance.exists_connectivity hinst c
    refine ⟨before, after, _, hused, hbefore, hafter, hsum, ?_, rfl⟩
    rw [Instance.clauseScore, Instance.clause, atHandle_natCast, hinst.getElem?_index hc]
    rfl
  usedPreds _ _ h := Instance.usedPreds_of_addClause h

/-- The chains `P → Q` and `Q → R`, a fact for `P`, and two negative clauses: `P → false`, which is
strict and backed by the fact, and `Q → false`, which is not strict. -/
def chained : Instance where
  name := "chained"
  preds := [⟨"P", [.int], [.int], [0], none⟩, ⟨"Q", [.int], [.int], [0], none⟩,
    ⟨"R", [.int], [.int], [0], none⟩]
  clauses := [
    ⟨0, [], [], [], some (0, [.int 0]), false, true⟩,
    ⟨1, [], [], [⟨0, [[.int 0]]⟩], some (1, [.int 0]), false, true⟩,
    ⟨2, [], [], [⟨1, [[.int 0]]⟩], some (2, [.int 0]), false, true⟩,
    ⟨3, [], [], [⟨0, [[.int 0]]⟩], none, false, true⟩,
    ⟨4, [], [], [⟨1, [[.int 0]]⟩], none, false, false⟩]
  users := [[1, 3], [2, 4], []]
  producers := [[0], [1], [2]]
  holders := 0
  expansions := []

/-- The strict clause is isolated first, although the other one has the greater score. -/
theorem isolates_by_priority_chained :
    chained.Indexed ∧ chained.clauseScore 3 = .ok 0 ∧ chained.clauseScore 4 = .ok 1 ∧
      (chained.splitOrder true).idxOf 4 < (chained.splitOrder true).idxOf 3 := by
  have hinst : chained.Indexed := by decide
  refine ⟨hinst, rfl, rfl, ?_⟩
  refine ((isolates_by_priority hinst).later true
    ⟨3, [], [], [⟨0, [[.int 0]]⟩], none, false, true⟩ ?_
    ⟨4, [], [], [⟨1, [[.int 0]]⟩], none, false, false⟩ ?_ rfl rfl).2 (.inl ?_)
  · simp [chained]
  · simp [chained]
  · exact Prod.Lex.toLex_lt_toLex.2 (.inl (by decide))

end Splitter

end Horn
