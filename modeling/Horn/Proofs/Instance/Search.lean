import Horn.Instance.Basic
import Mathlib.Logic.Function.Iterate

/-!
# Searching for the predicates of a term

`Search.run` looks at the terms of a list one after the other, and puts the children of each in
front of the others. It passes over a term that it has looked at before.

`Search.Sound` connects what has been found, what has been looked at and what is still on the list:
no child of a term that has been looked at is left out, and what has been found are the symbols of
predicates that the terms apply which have been looked at. A round keeps this
(`Search.Sound.round`). Once the list is empty, the terms that have been looked at contain the given
one and all their children, so they are those that occur in it (`Search.run_spec`).

Hence the answer is the set of predicates that are applied anywhere in the term
(`search_finds_mentioned`), which can also be read off the symbols of the term (`predsIn_eq`).
-/

namespace Horn

namespace Term

/-- The term occurs somewhere in another one, also under quantifiers. -/
inductive Occurs (s : Term) : Term → Prop
  | self : Occurs s s
  | child {t u : Term} : u ∈ t.children → Occurs s u → Occurs s t

mutual

/-- A symbol of a term heads an application that occurs in it. -/
theorem exists_occurs_of_mem_symbols {f : Symbol} : ∀ t : Term, f ∈ t.symbols →
    ∃ as, (fn f as).Occurs t
  | .lit _, h => by cases h
  | .bound _ _, h => by cases h
  | .fn g as, h => by
    rw [symbols, List.mem_cons] at h
    rcases h with rfl | h
    · exact ⟨as, .self⟩
    · obtain ⟨u, hu, bs, hbs⟩ := exists_occurs_of_mem_symbolsList as h
      exact ⟨bs, .child hu hbs⟩
  | .op _ as, h => by
    obtain ⟨u, hu, bs, hbs⟩ := exists_occurs_of_mem_symbolsList as h
    exact ⟨bs, .child hu hbs⟩
  | .quant _ _ b, h => by
    obtain ⟨bs, hbs⟩ := exists_occurs_of_mem_symbols b h
    exact ⟨bs, .child List.mem_cons_self hbs⟩

theorem exists_occurs_of_mem_symbolsList {f : Symbol} : ∀ as : List Term, f ∈ symbolsList as →
    ∃ u ∈ as, ∃ bs, (fn f bs).Occurs u
  | [], h => by cases h
  | a :: as, h => by
    rw [symbolsList, List.mem_append] at h
    rcases h with h | h
    · exact ⟨a, List.mem_cons_self, exists_occurs_of_mem_symbols a h⟩
    · obtain ⟨u, hu, hbs⟩ := exists_occurs_of_mem_symbolsList as h
      exact ⟨u, List.mem_cons_of_mem a hu, hbs⟩

end

/-- A term has the symbols of its children. -/
theorem mem_symbols_of_child {f : Symbol} {t u : Term} (hu : u ∈ t.children) (hf : f ∈ u.symbols) :
    f ∈ t.symbols := by
  cases t with
  | lit _ => cases hu
  | bound _ _ => cases hu
  | fn g as =>
    rw [symbols, symbolsList_eq_flatMap]
    exact List.mem_cons_of_mem g (List.mem_flatMap.2 ⟨u, hu, hf⟩)
  | op _ as =>
    rw [symbols, symbolsList_eq_flatMap]
    exact List.mem_flatMap.2 ⟨u, hu, hf⟩
  | quant _ _ b =>
    obtain rfl := List.mem_singleton.1 hu
    exact hf

/-- The symbols of a term are those that head the applications in it. -/
theorem mem_symbols_iff {f : Symbol} {t : Term} : f ∈ t.symbols ↔ ∃ as, (fn f as).Occurs t := by
  constructor
  · exact exists_occurs_of_mem_symbols t
  · rintro ⟨as, h⟩
    induction h with
    | self => exact List.mem_cons_self
    | child hu _ ih => exact mem_symbols_of_child hu ih

/-- What occurs in a term that occurs in another one occurs there, too. -/
theorem Occurs.trans {s t u : Term} (h : s.Occurs t) (h' : t.Occurs u) : s.Occurs u := by
  induction h' with
  | self => exact h
  | child hu _ ih => exact .child hu ih

end Term

namespace Instance

variable {inst : Instance}

/-- The symbol is one of a predicate. -/
def Declares (inst : Instance) (f : Symbol) : Prop := (inst.predOf? f).isSome = true

namespace Search

variable {s : Search} {t : Term} {f : Symbol}

/-- The term has been looked at, or is still to be. -/
def Reaches (s : Search) (u : Term) : Prop := u ∈ s.seen ∨ u ∈ s.todo

/-- What holds in a search for the predicates of a term. The search stays inside the term and
leaves out no child of a term that it has looked at, it looks at no term twice, and it has found the
symbols of predicates that the terms apply which it has looked at. -/
structure Sound (inst : Instance) (t : Term) (s : Search) : Prop where
  start : s.Reaches t
  inside : ∀ u, s.Reaches u → u.Occurs t
  children : ∀ u ∈ s.seen, ∀ c ∈ u.children, s.Reaches c
  once : s.seen.Nodup
  found : ∀ f, f ∈ s.found ↔ inst.Declares f ∧ ∃ as, Term.fn f as ∈ s.seen

/-- The search starts with the term itself. -/
theorem sound_start (inst : Instance) (t : Term) : Sound inst t (.start t) where
  start := .inr List.mem_cons_self
  inside u h := by
    obtain rfl : u = t := by simpa [Reaches, Search.start] using h
    exact .self
  children := List.forall_mem_nil _
  once := List.nodup_nil
  found f := by simp [Search.start]

/-- Noting the symbol that a term applies. -/
theorem mem_note (found : List Symbol) (t : Term) :
    f ∈ note inst found t ↔ f ∈ found ∨ inst.Declares f ∧ ∃ as, Term.fn f as = t := by
  cases t with
  | fn g as =>
    rw [note]
    split
    · next hg =>
      rw [List.mem_insert_iff]
      constructor
      · rintro (rfl | h)
        · exact .inr ⟨hg, as, rfl⟩
        · exact .inl h
      · rintro (h | ⟨-, as', h⟩)
        · exact .inr h
        · exact .inl (Term.fn.inj h).1
    · next hg =>
      refine ⟨.inl, ?_⟩
      rintro (h | ⟨hf, as', h⟩)
      · exact h
      · exact absurd ((Term.fn.inj h).1 ▸ hf) hg
  | _ => simp [note]

section Round

variable {u : Term} {rest seen : List Term} {found : List Symbol}

/-- A term that has been looked at may be passed over: it is reached without being on the list. -/
theorem Sound.pass (h : Sound inst t ⟨u :: rest, seen, found⟩) (hu : u ∈ seen) :
    Sound inst t ⟨rest, seen, found⟩ := by
  have hdrop : ∀ v, Reaches ⟨u :: rest, seen, found⟩ v → Reaches ⟨rest, seen, found⟩ v := by
    rintro v (hv | hv)
    · exact .inl hv
    · rcases List.mem_cons.1 hv with rfl | hv
      · exact .inl hu
      · exact .inr hv
  exact ⟨hdrop t h.start, fun v hv => h.inside v (hv.imp_right (List.mem_cons_of_mem u)),
    fun v hv c hc => hdrop c (h.children v hv c hc), h.once, h.found⟩

/-- A term is looked at: its symbol is noted, and its children come next. -/
theorem Sound.visit (h : Sound inst t ⟨u :: rest, seen, found⟩) (hu : u ∉ seen) :
    Sound inst t ⟨u.children.reverse ++ rest, u :: seen, note inst found u⟩ := by
  -- What is reached stays reached: the term moves from the worklist to those that were seen.
  have hkeep : ∀ v, Reaches ⟨u :: rest, seen, found⟩ v →
      Reaches ⟨u.children.reverse ++ rest, u :: seen, note inst found u⟩ v := by
    rintro v (hv | hv)
    · exact .inl (List.mem_cons_of_mem u hv)
    · rcases List.mem_cons.1 hv with rfl | hv
      · exact .inl List.mem_cons_self
      · exact .inr (List.mem_append_right _ hv)
  have hinside : u.Occurs t := h.inside u (.inr List.mem_cons_self)
  refine ⟨hkeep t h.start, ?_, ?_, List.nodup_cons.2 ⟨hu, h.once⟩, ?_⟩
  · rintro v (hv | hv)
    · rcases List.mem_cons.1 hv with rfl | hv
      · exact hinside
      · exact h.inside v (.inl hv)
    · rcases List.mem_append.1 hv with hv | hv
      · exact (Term.Occurs.child (List.mem_reverse.1 hv) .self).trans hinside
      · exact h.inside v (.inr (List.mem_cons_of_mem u hv))
  -- The children of the term are put on the worklist, those of others were taken care of before.
  · intro v hv c hc
    rcases List.mem_cons.1 hv with rfl | hv
    · exact .inr (List.mem_append_left _ (List.mem_reverse.2 hc))
    · exact hkeep c (h.children v hv c hc)
  · intro f
    rw [mem_note, h.found, ← and_or_left, ← exists_or]
    simp only [List.mem_cons, or_comm]

end Round

/-- **A round keeps the search sound.** -/
theorem Sound.round (h : Sound inst t s) : Sound inst t (s.round inst) := by
  obtain ⟨_ | ⟨u, rest⟩, seen, found⟩ := s
  · exact h
  · unfold Search.round
    dsimp only
    split
    · next hu => exact h.pass hu
    · next hu => exact h.visit hu

/-- **The search ends.** After some rounds, not more than the terms of its list have nodes, there is
nothing more to look at. -/
theorem exists_run (inst : Instance) (s : Search) :
    ∃ n ≤ s.size, s.run inst = (Search.round inst)^[n] s ∧ (s.run inst).todo = [] := by
  induction s using Search.run.induct inst with
  | case1 s h =>
    rw [run, dif_pos h]
    exact ⟨0, Nat.zero_le _, rfl, h⟩
  | case2 s h ih =>
    obtain ⟨n, hn, hrun, htodo⟩ := ih
    rw [run, dif_neg h]
    have hlt := size_round_lt inst h
    exact ⟨n + 1, by omega, hrun, htodo⟩

theorem Sound.iterate (h : Sound inst t s) (n : ℕ) : Sound inst t ((Search.round inst)^[n] s) := by
  induction n generalizing s with
  | zero => exact h
  | succ n ih => exact ih h.round

/-- **The whole search.** It looks at every term that occurs in the given one, and at none twice,
and finds the symbols of predicates that occur. -/
theorem run_spec (inst : Instance) (t : Term) :
    (run inst (.start t)).seen.Nodup ∧
      (∀ u, u ∈ (run inst (.start t)).seen ↔ u.Occurs t) ∧
      ∀ f, f ∈ (run inst (.start t)).found ↔ inst.Declares f ∧ f ∈ t.symbols := by
  obtain ⟨n, -, hrun, htodo⟩ := exists_run inst (.start t)
  have h : Sound inst t (run inst (.start t)) := by
    rw [hrun]
    exact (sound_start inst t).iterate n
  generalize run inst (.start t) = s at h htodo ⊢
  have hreached : ∀ {u}, s.Reaches u → u ∈ s.seen := fun hu => by
    rcases hu with hu | hu
    · exact hu
    · rw [htodo] at hu
      cases hu
  -- What has been looked at is closed under children, and the given term is part of it.
  have hclosed : ∀ {u v}, u.Occurs v → v ∈ s.seen → u ∈ s.seen := by
    intro u v hu
    induction hu with
    | self => exact id
    | child hc _ ih => exact fun hv => ih (hreached (h.children _ hv _ hc))
  have hseen : ∀ u, u ∈ s.seen ↔ u.Occurs t := fun u =>
    ⟨fun hu => h.inside u (.inl hu), fun hu => hclosed hu (hreached h.start)⟩
  refine ⟨h.once, hseen, fun f => ?_⟩
  rw [h.found, Term.mem_symbols_iff]
  simp only [hseen]

end Search

/-! ### Mentioned predicates -/

theorem declares_symbol {p : ℕ} {q : Predicate} (hq : inst.preds[p]? = some q) :
    inst.Declares q.symbol := by
  rw [Declares, predOf?, List.findIdx?_isSome, List.any_eq_true]
  exact ⟨q, List.mem_of_getElem? hq, beq_self_eq_true _⟩

/-- What the search finds are the predicates whose symbols occur. -/
theorem predsIn_eq (inst : Instance) (t : Term) :
    inst.predsIn t = (List.range inst.preds.length).filter fun i =>
      match inst.preds[i]? with
      | some q => t.symbols.contains q.symbol
      | none => false := by
  have hfound := (Search.run_spec inst t).2.2
  refine List.filter_congr fun i _ => ?_
  cases hq : inst.preds[i]? with
  | none => rfl
  | some q =>
    rw [Bool.eq_iff_iff, List.contains_iff_mem, List.contains_iff_mem, hfound]
    exact and_iff_right (declares_symbol hq)

/-- A predicate is mentioned by a term if its symbol occurs anywhere in it. -/
theorem mem_predsIn {t : Term} {p : ℕ} :
    p ∈ inst.predsIn t ↔ ∃ q, inst.preds[p]? = some q ∧ q.symbol ∈ t.symbols := by
  rw [predsIn_eq, List.mem_filter, List.mem_range]
  constructor
  · rintro ⟨-, h⟩
    cases hq : inst.preds[p]? with
    | none => simp [hq] at h
    | some q => exact ⟨q, rfl, by simpa [hq] using h⟩
  · rintro ⟨q, hq, hs⟩
    exact ⟨(List.getElem?_eq_some_iff.1 hq).1, by simp [hq, hs]⟩

/-- **What a term mentions.** The search ends, after at most as many rounds as the term has nodes.
By then it has looked at each term that occurs in the given one, and at none twice. The answer lists
the predicates whose symbol heads an application that occurs in the term. -/
theorem search_finds_mentioned (inst : Instance) (t : Term) :
    (∃ n ≤ t.size, Search.run inst (.start t) = (Search.round inst)^[n] (.start t) ∧
      (Search.run inst (.start t)).todo = []) ∧
    (Search.run inst (.start t)).seen.Nodup ∧
    (∀ u, u ∈ (Search.run inst (.start t)).seen ↔ u.Occurs t) ∧
    (inst.predsIn t).Pairwise (· < ·) ∧
    ∀ p, p ∈ inst.predsIn t ↔
      ∃ q as, inst.preds[p]? = some q ∧ (Term.fn q.symbol as).Occurs t := by
  obtain ⟨honce, hseen, -⟩ := Search.run_spec inst t
  have hends := Search.exists_run inst (.start t)
  have hsize : (Search.start t).size = t.size := Nat.add_zero _
  rw [hsize] at hends
  refine ⟨hends, honce, hseen, List.pairwise_lt_range.filter _, fun p => ?_⟩
  rw [mem_predsIn]
  simp only [Term.mem_symbols_iff, exists_and_left]

/-- What a term mentions is a matter of the table of predicates. -/
theorem predsIn_congr {inst' : Instance} (h : inst'.preds = inst.preds) (t : Term) :
    inst'.predsIn t = inst.predsIn t := by
  rw [predsIn_eq, predsIn_eq, h]

end Instance
end Horn
