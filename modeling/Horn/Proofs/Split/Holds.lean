import Horn.Split.Loop

/-!
# Counting holds

An instance counts its holders, whoever they are. A collaborator of the split loop may take holds on
the instances that it was given and release them in later calls, so that the counts of all of them
may change with each call (`Instance.rehold`, `Holds.settle`).

* `Instance.rehold_held` says that this does not touch the holds of others.
* `Holds.upon` are the parts with certain holds on them. Settling leads from the holds of one call
  to those of the next (`Holds.settle_upon`), however often that is done.
* `Holds.onTop` only depends on which parts are the top-level instance, not on what becomes of the
  others (`Holds.onTop_congr`). `Holds.onLast` are the holds on the instance that was given last,
  which may be the top-level instance once more.
-/

namespace Horn

namespace Instance

/-- The instance with more holders. -/
def held (inst : Instance) (n : Nat) : Instance :=
  { inst with holders := inst.holders + n }

@[simp] theorem held_held (inst : Instance) (m n : Nat) :
    (inst.held m).held n = inst.held (m + n) := by
  simp [held, Nat.add_assoc]

/-- One of several holders lets go. -/
theorem release_held (inst : Instance) (n : Nat) :
    (inst.held (1 + n)).release = .ok (inst.held n) := by
  have hpos : ¬(inst.held (1 + n)).holders = 0 := by
    change ¬inst.holders + (1 + n) = 0
    omega
  have hless : (inst.held (1 + n)).holders - 1 = inst.holders + n := by
    change inst.holders + (1 + n) - 1 = inst.holders + n
    omega
  rw [release, if_neg hpos, hless]
  rfl

/-- Changing the number of some holds leaves the other ones. -/
theorem rehold_held (inst : Instance) (k m n : Nat) :
    (inst.held (k + m)).rehold m n = inst.held (k + n) := by
  have hsum : inst.holders + (k + m) - m + n = inst.holders + (k + n) := by omega
  exact congrArg (fun holders => { inst with holders := holders }) hsum

/-- Holds besides those whose number changes are not lost. -/
theorem le_rehold {inst : Instance} {k m : Nat} (n : Nat) (h : k + m ≤ inst.holders) :
    k + n ≤ (inst.rehold m n).holders := by
  change k + n ≤ inst.holders - m + n
  omega

end Instance

namespace Holds

/-! ### Holds on the top-level instance -/

/-- There are no holds yet on an instance that is just being given. -/
@[simp] theorem onTop_next {α : Type} (h : Holds) (part : Option α) (given : List (Option α)) :
    h.next.onTop (part :: given) = h.onTop given := by
  cases part with
  | none => exact Nat.zero_add _
  | some part => rfl

/-- There are no holds on the top-level instance if it has not been given. -/
theorem onTop_eq_zero {α : Type} (h : Holds) {given : List (Option α)} (hnone : none ∉ given) :
    h.onTop given = 0 := by
  induction given generalizing h with
  | nil => rfl
  | cons part given ih =>
    obtain ⟨hpart, hrest⟩ := not_or.1 (mt List.mem_cons.2 hnone)
    cases part with
    | none => exact absurd rfl hpart
    | some part => exact ih h.earlier hrest

/-- It does not matter what becomes of the other instances. -/
theorem onTop_congr {α β : Type} {given : List (Option α)} {given' : List (Option β)}
    (h : given.map Option.isNone = given'.map Option.isNone) (g : Holds) :
    g.onTop given = g.onTop given' := by
  induction given generalizing given' g with
  | nil =>
    obtain rfl : given' = [] := List.map_eq_nil_iff.1 h.symm
    rfl
  | cons part given ih =>
    cases given' with
    | nil => cases h
    | cons part' given' =>
      obtain ⟨hpart, hrest⟩ := List.cons_eq_cons.1 h
      cases part <;> cases part'
      · exact congrArg (g.last + ·) (ih hrest g.earlier)
      · cases hpart
      · cases hpart
      · exact ih hrest g.earlier

/-- The holds on the instance that was given last. If it is the top-level instance, these are also
the ones from before. -/
def onLast {α : Type} (h : Holds) : List (Option α) → Nat
  | none :: given => h.onTop (none :: given)
  | _ => h.last

theorem last_le_onLast {α : Type} (h : Holds) (given : List (Option α)) :
    h.last ≤ h.onLast given := by
  rcases given with _ | ⟨_ | part, given⟩
  · exact Nat.le_refl _
  · exact Nat.le_add_right _ _
  · exact Nat.le_refl _

theorem onLast_congr {α β : Type} {given : List (Option α)} {given' : List (Option β)}
    (h : given.map Option.isNone = given'.map Option.isNone) (g : Holds) :
    g.onLast given = g.onLast given' := by
  have htop := onTop_congr h g
  cases given with
  | nil =>
    obtain rfl : given' = [] := List.map_eq_nil_iff.1 h.symm
    rfl
  | cons part given =>
    cases given' with
    | nil => cases h
    | cons part' given' =>
      obtain ⟨hpart, -⟩ := List.cons_eq_cons.1 h
      cases part <;> cases part'
      · exact htop
      · cases hpart
      · cases hpart
      · rfl

/-! ### Holds on parts -/

/-- The parts with holds on them. -/
def upon (h : Holds) : List (Option Instance) → List (Option Instance)
  | [] => []
  | part :: parts => part.map (·.held h.last) :: h.earlier.upon parts

@[simp] theorem map_isNone_upon (h : Holds) (parts : List (Option Instance)) :
    (h.upon parts).map Option.isNone = parts.map Option.isNone := by
  induction parts generalizing h with
  | nil => rfl
  | cons part parts ih => simp [upon, ih]

@[simp] theorem map_isNone_settle (before after : Holds) (parts : List (Option Instance)) :
    (before.settle after parts).map Option.isNone = parts.map Option.isNone := by
  induction parts generalizing before after with
  | nil => rfl
  | cons part parts ih => simp [settle, ih]

/-- The top-level instance is still the top-level instance when the holds are settled. -/
theorem none_mem_settle {before after : Holds} {parts : List (Option Instance)} :
    none ∈ before.settle after parts ↔ none ∈ parts := by
  induction parts generalizing before after with
  | nil => rfl
  | cons part parts ih =>
    rw [settle, List.mem_cons, List.mem_cons, ih]
    cases part <;> simp

/-- **Settling.** When the holds have changed, the parts have the new ones in place of the old
ones. -/
theorem settle_upon (before after : Holds) (parts : List (Option Instance)) :
    before.settle after (before.upon parts) = after.upon parts := by
  induction parts generalizing before after with
  | nil => rfl
  | cons part parts ih =>
    have hpart : (part.map (·.held before.last)).map (·.rehold before.last after.last) =
        part.map (·.held after.last) := by
      cases part with
      | none => rfl
      | some part =>
        have hheld := part.rehold_held 0 before.last after.last
        rw [Nat.zero_add, Nat.zero_add] at hheld
        exact congrArg some hheld
    rw [upon, upon, settle, hpart, ih]

end Holds

end Horn
