import Horn.Proofs.Instance.Built
import Horn.Proofs.Oracle.Assertion
import Horn.Sample.Signature

/-!
# Samples under two signatures

`Sample.toOriginal` writes the values of a sample to the positions of the original signature,
`Sample.toReduced` reads them there. What has been accepted as a signature lets both succeed, and
reading first and writing afterwards forgets exactly the positions that the current signature lacks
(`Predicate.IsProjection.forgets`).

Writing first and reading afterwards gives the sample back, with the unknown value exactly where it
should be, if and only if the positions are distinct, and if and only if different samples have
different originals (`Predicate.signatures_of_addPredicate`). The check of a description does not
ask for that: two arguments may share a position, and the value of the later one is written over
the other (`Predicate.shared_position_accepted`).
-/

namespace Horn

namespace Sample

/-! ### Values at positions -/

variable {positions : List Nat} {values into : List Value}

theorem place_cons (i : Nat) (v : Value) :
    place (i :: positions) (v :: values) into = place positions values (into.set i v) := rfl

theorem length_place : (place positions values into).length = into.length := by
  induction positions generalizing values into with
  | nil => rfl
  | cons i positions ih =>
    cases values with
    | nil => rfl
    | cons v values => rw [place_cons, ih, List.length_set]

/-- A position that no value is meant for keeps its value. -/
theorem place_of_notMem {j : Nat} (hj : j ∉ positions) :
    (place positions values into)[j]? = into[j]? := by
  induction positions generalizing values into with
  | nil => rfl
  | cons i positions ih =>
    cases values with
    | nil => rfl
    | cons v values =>
      rw [List.mem_cons, not_or] at hj
      rw [place_cons, ih hj.2, List.getElem?_set_ne (Ne.symm hj.1)]

/-- A position gets the last one of the values that are meant for it. -/
theorem exists_place {j : Nat} (hlength : values.length = positions.length)
    (hlt : j < into.length) (hj : j ∈ positions) :
    ∃ i : Nat, positions[i]? = some j ∧ (∀ k : Nat, i < k → positions[k]? ≠ some j) ∧
      (place positions values into)[j]? = values[i]? := by
  induction positions generalizing values into with
  | nil => cases hj
  | cons k positions ih =>
    cases values with
    | nil => cases hlength
    | cons v values =>
      rw [place_cons]
      by_cases hrest : j ∈ positions
      · -- A later value is written over this one.
        obtain ⟨i, hi, hlast, hplace⟩ := ih (Nat.succ.inj hlength)
          (List.length_set.symm ▸ hlt) hrest
        refine ⟨i + 1, hi, fun k hk => ?_, hplace⟩
        cases k with
        | zero => cases hk
        | succ k => exact hlast k (Nat.lt_of_succ_lt_succ hk)
      · obtain rfl : j = k := (List.mem_cons.1 hj).resolve_right hrest
        refine ⟨0, rfl, fun k hk => ?_, ?_⟩
        · cases k with
          | zero => cases hk
          | succ k => exact fun h => hrest (List.mem_of_getElem? h)
        · rw [place_of_notMem hrest, List.getElem?_set_self hlt]
          rfl

end Sample

namespace Predicate

open Sample

variable {p : Predicate}

/-! ### One signature after the other -/

/-- Every sample of the current signature is found again in its original, which has the unknown
value exactly at the positions without an argument and at those of an unknown argument. -/
def RoundTrips (p : Predicate) : Prop :=
  ∀ s : Sample, s.args.length = p.sorts.length → ∃ o : Sample, s.toOriginal p = .ok o ∧
    o.toReduced p = .ok s ∧ o.args.length = p.originalSorts.length ∧
    ∀ j < p.originalSorts.length, o.args[j]? = some Value.unknown ↔
      (j ∉ p.positions ∨ ∃ i : Nat, p.positions[i]? = some j ∧ s.args[i]? = some Value.unknown)

/-- Different samples of the current signature have different originals. -/
def KeepsApart (p : Predicate) : Prop :=
  ∀ s t : Sample, s.args.length = p.sorts.length → t.args.length = p.sorts.length →
    s.toOriginal p = t.toOriginal p → s = t

/-- Every sample of the original signature is read under the current one, and what is written back
agrees with it at the positions of the arguments and has the unknown value at the others. -/
def Forgets (p : Predicate) : Prop :=
  ∀ o : Sample, o.args.length = p.originalSorts.length → ∃ s o' : Sample,
    o.toReduced p = .ok s ∧ s.toOriginal p = .ok o' ∧
    o'.pred = o.pred ∧ o'.args.length = p.originalSorts.length ∧
    (∀ j ∈ p.positions, o'.args[j]? = o.args[j]?) ∧
    ∀ j < p.originalSorts.length, j ∉ p.positions → o'.args[j]? = some Value.unknown

/-- The arguments of the original of a sample with these values. -/
def originalArgs (p : Predicate) (values : List Value) : List Value :=
  place p.positions values (List.replicate p.originalSorts.length Value.unknown)

theorem toOriginal_ok {s : Sample} (h : s.args.length = p.sorts.length) :
    s.toOriginal p = .ok ⟨s.pred, p.originalArgs s.args⟩ := if_pos h

theorem toReduced_ok {o : Sample} (h : o.args.length = p.originalSorts.length) :
    o.toReduced p = .ok ⟨o.pred, p.positions.map fun i => (o.args[i]?).getD .unknown⟩ := if_pos h

theorem length_originalArgs (p : Predicate) (values : List Value) :
    (p.originalArgs values).length = p.originalSorts.length :=
  length_place.trans List.length_replicate

theorem originalArgs_of_notMem {values : List Value} {j : Nat}
    (hlt : j < p.originalSorts.length) (hj : j ∉ p.positions) :
    (p.originalArgs values)[j]? = some Value.unknown := by
  rw [originalArgs, place_of_notMem hj, List.getElem?_replicate, if_pos hlt]

namespace IsProjection

variable {values : List Value}

/-- The position of an argument has the value of the last argument with that position. -/
theorem exists_originalArgs (h : p.IsProjection) (hlength : values.length = p.sorts.length)
    {j : Nat} (hj : j ∈ p.positions) :
    ∃ i : Nat, p.positions[i]? = some j ∧ (∀ k : Nat, i < k → p.positions[k]? ≠ some j) ∧
      (p.originalArgs values)[j]? = values[i]? :=
  exists_place (hlength.trans h.length.symm) (List.length_replicate.symm ▸ h.lt j hj) hj

/-- If the positions are distinct, every argument is found at its position. -/
theorem originalArgs_of_nodup (h : p.IsProjection) (hnodup : p.positions.Nodup)
    (hlength : values.length = p.sorts.length) {i j : Nat} (hi : p.positions[i]? = some j) :
    (p.originalArgs values)[j]? = values[i]? := by
  obtain ⟨i', hi', -, hvalue⟩ := h.exists_originalArgs hlength (List.mem_of_getElem? hi)
  obtain rfl : i' = i :=
    (List.getElem?_inj (List.getElem?_eq_some_iff.1 hi').1 hnodup).1 (hi'.trans hi.symm)
  exact hvalue

/-- Reading first and writing afterwards forgets the positions without an argument only. -/
theorem forgets (h : p.IsProjection) : p.Forgets := by
  intro o ho
  have hlength : (p.positions.map fun i => (o.args[i]?).getD .unknown).length = p.sorts.length := by
    rw [List.length_map, h.length]
  refine ⟨_, _, toReduced_ok ho, toOriginal_ok hlength, rfl, length_originalArgs p _,
    fun j hj => ?_, fun j hlt hj => originalArgs_of_notMem hlt hj⟩
  -- Whichever argument is written last to the position, it has been read there.
  obtain ⟨i, hi, -, hvalue⟩ := h.exists_originalArgs hlength hj
  rw [hvalue, List.getElem?_map, hi, Option.map_some,
    List.getElem?_eq_getElem (ho ▸ h.lt j hj), Option.getD_some]

/-- Distinct positions let every sample be found again. -/
theorem roundTrips (h : p.IsProjection) (hnodup : p.positions.Nodup) : p.RoundTrips := by
  intro s hs
  have hargs := length_originalArgs p s.args
  refine ⟨_, toOriginal_ok hs, ?_, hargs, fun j hlt => ?_⟩
  · rw [toReduced_ok hargs]
    refine congrArg (fun args => Except.ok (Sample.mk s.pred args)) (List.ext_getElem? fun i => ?_)
    rw [List.getElem?_map]
    -- Past the last position neither side has an argument.
    cases hi : p.positions[i]? with
    | none =>
      rw [Option.map_none, List.getElem?_eq_none (hs.trans h.length.symm ▸
        List.getElem?_eq_none_iff.1 hi)]
    | some j =>
      have hlt : i < s.args.length := by
        rw [hs, ← h.length]
        exact (List.getElem?_eq_some_iff.1 hi).1
      rw [Option.map_some, h.originalArgs_of_nodup hnodup hs hi, List.getElem?_eq_getElem hlt,
        Option.getD_some]
  · change (p.originalArgs s.args)[j]? = _ ↔ _
    constructor
    -- A place that some position stands for has the argument at this position.
    · intro hvalue
      refine or_iff_not_imp_left.2 fun hj => ?_
      obtain ⟨i, hi⟩ := List.mem_iff_getElem?.1 (not_not.1 hj)
      exact ⟨i, hi, h.originalArgs_of_nodup hnodup hs hi ▸ hvalue⟩
    · rintro (hj | ⟨i, hi, hvalue⟩)
      · exact originalArgs_of_notMem hlt hj
      · rw [h.originalArgs_of_nodup hnodup hs hi, hvalue]

/-- If two arguments share a position, two samples that differ in the earlier one only are not kept
apart. -/
theorem nodup_of_keepsApart (h : p.IsProjection) (hapart : p.KeepsApart) : p.positions.Nodup := by
  refine List.nodup_iff_getElem?_ne_getElem?.2 fun i k hik hk hshared => ?_
  let blank := List.replicate p.sorts.length Value.unknown
  have hlength : ∀ v, (blank.set i v).length = p.sorts.length := fun v =>
    List.length_set.trans List.length_replicate
  -- The argument at `i` is written over, so its value does not matter.
  have hblank : ∀ v, p.originalArgs (blank.set i v) =
      List.replicate p.originalSorts.length Value.unknown := by
    intro v
    refine List.eq_replicate_iff.2 ⟨length_originalArgs p _, fun w hw => ?_⟩
    obtain ⟨j, hj⟩ := List.mem_iff_getElem?.1 hw
    have hlt : j < p.originalSorts.length :=
      length_originalArgs p _ ▸ (List.getElem?_eq_some_iff.1 hj).1
    by_cases hmem : j ∈ p.positions
    · obtain ⟨i', hi', hlast, hvalue⟩ := h.exists_originalArgs (hlength v) hmem
      have hne : i ≠ i' := by
        rintro rfl
        exact hlast k hik (hshared.symm.trans hi')
      rw [hj, List.getElem?_set_ne hne] at hvalue
      exact List.eq_of_mem_replicate (List.mem_of_getElem? hvalue.symm)
    · exact Option.some.inj (hj.symm.trans (originalArgs_of_notMem hlt hmem))
  have heq := hapart ⟨0, blank.set i .absent⟩ ⟨0, blank.set i .unknown⟩ (hlength _) (hlength _) (by
    rw [toOriginal_ok (hlength _), toOriginal_ok (hlength _), hblank, hblank])
  have hi : i < blank.length := by
    rw [List.length_replicate, ← h.length]
    exact hik.trans hk
  have hvalue := congrArg (fun s : Sample => s.args[i]?) heq
  dsimp only at hvalue
  rw [List.getElem?_set_self hi, List.getElem?_set_self hi] at hvalue
  cases hvalue

end IsProjection

/-- What is found again in its original has another original than other samples. -/
theorem RoundTrips.keepsApart (h : p.RoundTrips) : p.KeepsApart := by
  intro s t hs ht heq
  obtain ⟨o, ho, hback, -⟩ := h s hs
  obtain ⟨o', ho', hback', -⟩ := h t ht
  obtain rfl : o = o' := Except.ok.inj (ho.symm.trans (heq.trans ho'))
  exact Except.ok.inj (hback.symm.trans hback')

/-! ### Accepted signatures -/

/-- The positions that are stored are those of the description. -/
theorem positions_of_make {name : String} {sorts : List TermSort}
    {original : Option (List TermSort)} {given : List Int}
    (h : make name sorts original (some given) = .ok p) : p.positions.map Int.ofNat = given := by
  unfold make at h
  dsimp only at h
  obtain ⟨_, hpure, h⟩ := bind_eq_ok.1 h
  cases hpure
  split at h
  · cases h
  · next hlength =>
    obtain ⟨checked, hchecked, h⟩ := bind_eq_ok.1 h
    cases h
    exact (eq_map_of_checkPositions (not_not.1 hlength) hchecked).symm

/-- Writing first and reading afterwards gives the samples of an accepted signature back exactly if
its positions are distinct, which is also what keeps the originals of different samples apart;
reading first and writing afterwards always forgets the positions without an argument only. -/
theorem signatures_of_addPredicate {inst inst' : Instance} {name : String}
    {sorts : List TermSort} {original : Option (List TermSort)} {positions : Option (List Int)}
    (h : inst.addPredicate name sorts original positions = .ok inst') :
    ∃ p, inst'.preds = inst.preds ++ [p] ∧ p.name = name ∧ p.sorts = sorts ∧
      p.originalSorts = original.getD sorts ∧
      (∀ given, positions = some given → p.positions.map Int.ofNat = given) ∧
      (p.RoundTrips ↔ p.positions.Nodup) ∧ (p.KeepsApart ↔ p.positions.Nodup) ∧ p.Forgets := by
  unfold Instance.addPredicate at h
  split at h
  · cases h
  · obtain ⟨p, hp, h⟩ := bind_eq_ok.1 h
    cases h
    have hproj := isProjection_of_make hp
    have hround : p.RoundTrips ↔ p.positions.Nodup :=
      ⟨fun h => hproj.nodup_of_keepsApart h.keepsApart, hproj.roundTrips⟩
    have hapart : p.KeepsApart ↔ p.positions.Nodup :=
      ⟨hproj.nodup_of_keepsApart, fun h => (hproj.roundTrips h).keepsApart⟩
    have hgiven : ∀ given, positions = some given → p.positions.map Int.ofNat = given := by
      rintro given rfl
      exact positions_of_make hp
    obtain ⟨_, _, -, -, rfl⟩ := make_ok hp
    exact ⟨_, rfl, rfl, rfl, rfl, hgiven, hround, hapart, hproj.forgets⟩

/-- A permuted signature with a gap is accepted, its positions are distinct, and so its samples are
found again. -/
theorem signatures_of_addPredicate_permuted :
    ∃ inst' p, (Instance.empty "i").addPredicate "P" [.bool, .int] (some [.int, .int, .bool])
        (some [2, 0]) = .ok inst' ∧ inst'.preds = [p] ∧ p.positions = [2, 0] ∧
      p.RoundTrips ∧ p.KeepsApart ∧ p.Forgets := by
  refine ⟨_, ⟨"P", [.bool, .int], [.int, .int, .bool], [2, 0], none⟩, rfl, rfl, rfl, ?_⟩
  obtain ⟨p, hp, -, -, -, -, hround, hapart, hforgets⟩ :=
    @signatures_of_addPredicate (Instance.empty "i") _ "P" [.bool, .int]
      (some [.int, .int, .bool]) (some [2, 0]) rfl
  obtain rfl := List.cons.inj (List.nil_append _ ▸ hp) |>.1
  exact ⟨hround.2 (by decide), hapart.2 (by decide), hforgets⟩

/-- A signature whose two arguments share a position is accepted, and the value of the first
argument is lost. -/
theorem shared_position_accepted :
    ∃ inst' p, (Instance.empty "i").addPredicate "P" [.int, .int] (some [.int]) (some [0, 0]) =
        .ok inst' ∧ inst'.preds = [p] ∧ ¬p.RoundTrips ∧ ¬p.KeepsApart ∧
      (Sample.mk 0 [.int 1, .int 2]).toOriginal p = .ok ⟨0, [.int 2]⟩ ∧
      (Sample.mk 0 [.int 2]).toReduced p = .ok ⟨0, [.int 2, .int 2]⟩ := by
  refine ⟨_, ⟨"P", [.int, .int], [.int], [0, 0], none⟩, rfl, rfl, fun h => ?_, fun h => ?_,
    rfl, rfl⟩
  · obtain ⟨o, ho, hback, -⟩ := h ⟨0, [.int 1, .int 2]⟩ rfl
    obtain rfl : (⟨0, [.int 2]⟩ : Sample) = o := Except.ok.inj ho
    cases hback
  · exact absurd (h ⟨0, [.int 1, .int 2]⟩ ⟨0, [.int 2, .int 2]⟩ rfl rfl rfl) (by decide)

end Predicate

end Horn
