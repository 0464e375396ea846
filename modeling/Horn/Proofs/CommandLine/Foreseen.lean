import Horn.CommandLine.Report
import Horn.Proofs.Act

/-!
# Faults that are not foreseen

The command line reports the faults that it foresees (`Fault.isForeseen`) as errors, and lets all
others through. `Unforeseen x` says that a result is a fault of the second kind. It is computed
along the structure of a program: a sequence is unforeseen if its first part is, or if its second
part is after a first part that succeeds (`unforeseen_bind`). So for each reader there is an
equivalence that names the inputs it is unforeseen on. The first one is for text files: they are
those whose bytes are not in UTF-8 (`Files.Garbled`).
-/

namespace Horn

/-- The result is a fault that the command line does not foresee. -/
def Unforeseen {α : Type} (x : Except Fault α) : Prop := ∃ e, x = .error e ∧ e.isForeseen = false

section Unforeseen

variable {α β : Type} {x : Except Fault α}

@[simp] theorem unforeseen_ok (a : α) : Unforeseen (.ok a) ↔ False := by
  constructor
  · rintro ⟨_, h, -⟩
    cases h
  · exact False.elim

@[simp] theorem unforeseen_pure (a : α) : Unforeseen (pure a) ↔ False := unforeseen_ok a

@[simp] theorem unforeseen_error (e : Fault) :
    Unforeseen (.error e : Except Fault α) ↔ e.isForeseen = false := by
  constructor
  · rintro ⟨_, h, he⟩
    cases h
    exact he
  · exact fun he => ⟨e, rfl, he⟩

/-- A success is no fault. -/
theorem not_unforeseen_of_ok {a : α} (h : x = .ok a) : ¬Unforeseen x := by
  rw [h, unforeseen_ok]
  exact not_false

/-- A result all of whose faults are foreseen. -/
theorem Raises.not_unforeseen (h : Raises (·.isForeseen = true) x) : ¬Unforeseen x := by
  rintro ⟨e, he, hforeseen⟩
  rw [h e he] at hforeseen
  cases hforeseen

/-- **Sequences.** The first part is unforeseen, or it succeeds and the second part is. -/
theorem unforeseen_bind {f : α → Except Fault β} :
    Unforeseen (x >>= f) ↔ Unforeseen x ∨ ∃ a, x = .ok a ∧ Unforeseen (f a) := by
  cases x with
  | error e =>
    simp only [bind, Except.bind, unforeseen_error, reduceCtorEq, false_and, exists_false, or_false]
  | ok a =>
    simp only [bind, Except.bind, unforeseen_ok, Except.ok.injEq, exists_eq_left', false_or]

theorem unforeseen_map {f : α → β} : Unforeseen (x.map f) ↔ Unforeseen x := by
  cases x with
  | error e => rw [Except.map, unforeseen_error, unforeseen_error]
  | ok a => rw [Except.map, unforeseen_ok, unforeseen_ok]

/-- A sequence whose second part is foreseen in any case. -/
theorem unforeseen_bind_left {f : α → Except Fault β} (h : ∀ a, x = .ok a → ¬Unforeseen (f a)) :
    Unforeseen (x >>= f) ↔ Unforeseen x := by
  rw [unforeseen_bind]
  exact or_iff_left fun ⟨a, ha, hf⟩ => h a ha hf

end Unforeseen

/-! ### Files -/

namespace Files

/-- The bytes of the file at a path are not in UTF-8. -/
def Garbled (files : Files) (path : String) : Prop :=
  ∃ bytes, files path = some (.file bytes) ∧ ¬bytes.IsValidUTF8

/-- A path at which no file lies is foreseen. -/
theorem raises_readBytes (files : Files) (path : String) :
    Raises (·.isForeseen = true) (files.readBytes path) := by
  unfold readBytes
  split
  · split
    · exact raises_error rfl
    · exact raises_error rfl
  · exact raises_error rfl
  · exact raises_ok _

theorem readBytes_eq_ok {files : Files} {path : String} {bytes : ByteArray} :
    files.readBytes path = .ok bytes ↔ files path = some (.file bytes) := by
  unfold readBytes
  split
  · next h =>
    rw [h]
    split <;> simp
  · next h =>
    rw [h]
    simp
  · next h =>
    rw [h]
    simp

theorem unforeseen_ofBytes {bytes : ByteArray} :
    Unforeseen (Text.ofBytes bytes) ↔ ¬bytes.IsValidUTF8 := by
  unfold Text.ofBytes String.fromUTF8?
  split
  · next s h =>
    split at h
    · next hvalid => simp [hvalid]
    · cases h
  · next h =>
    split at h
    · cases h
    · next hvalid => simp [hvalid, Fault.isForeseen]

/-- **Reading a text file** is unforeseen if its bytes are not in UTF-8. -/
theorem unforeseen_readText {files : Files} {path : String} :
    Unforeseen (files.readText path) ↔ files.Garbled path := by
  unfold Garbled
  change Unforeseen (files.readBytes path >>= Text.ofBytes) ↔ _
  rw [unforeseen_bind, or_iff_right (raises_readBytes files path).not_unforeseen]
  simp only [readBytes_eq_ok, unforeseen_ofBytes]

/-! ### Writing -/

/-- No files at all. -/
def empty : Files := fun _ => none

/-- The files after a text has been written to a path. -/
def write (files : Files) (path text : String) : Files :=
  fun path' => if path' = path then some (.file text.toUTF8) else files path'

theorem write_self (files : Files) (path text : String) :
    files.write path text path = some (.file text.toUTF8) := if_pos rfl

end Files

end Horn
