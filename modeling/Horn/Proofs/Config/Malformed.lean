import Horn.Proofs.Config.Faults
import Horn.Proofs.Yaml.Sections

/-!
# Malformed settings

Settings that cannot be used have faults of their own: a document that is malformed or no map, a
time limit that is no integer, a level that is unknown (`Fault.IsOfSettings`).
`Config.isAnswer_ofFile` says that reading an existing file gives settings or one of these faults,
but for the files that `Spoils` lists, and that reading the map of a document does, but for those
that `Stumbles` lists. This holds of any reader whose faults are its own. There is nothing else: a
value of any kind is fine as a flag or as a name, and one that is no level has no other fault,
unless it is too long to be written.
-/

namespace Horn

open Decimal (Double)
open Yaml (Datum Kind Node Token)

/-- The faults of settings. -/
def Fault.IsOfSettings : Fault → Prop
  | .unreadableConfig _ _ => True
  | .configNotMapping _ => True
  | .timeoutNotInteger _ => True
  | .unknownLevel _ => True
  | _ => False

/-- The faults of settings, and those that are not foreseen. -/
def Fault.IsOfSettingsOrStray (e : Fault) : Prop := e.IsOfSettings ∨ e.isForeseen = false

namespace Config

/-- The faults of settings are foreseen. -/
theorem isForeseen_of_isOfSettings {e : Fault} (h : e.IsOfSettings) : e.isForeseen = true := by
  cases e <;> first | rfl | exact False.elim h

/-- If all faults are of settings or not foreseen, then those that are foreseen are of settings. -/
theorem raises_iff_not_unforeseen {α : Type} {x : Except Fault α}
    (h : Raises Fault.IsOfSettingsOrStray x) : Raises Fault.IsOfSettings x ↔ ¬Unforeseen x := by
  constructor
  · exact fun hx => (hx.mono fun _ => isForeseen_of_isOfSettings).not_unforeseen
  · intro hx e he
    exact (h e he).resolve_right fun hstray => hx ⟨e, he, hstray⟩

theorem raises_fields (document : List (Datum × Datum)) (name : String) :
    Raises Fault.IsOfSettingsOrStray (fields document name) := by
  unfold fields
  split
  · exact raises_ok _
  · split
    · exact raises_ok _
    · split
      · exact raises_ok _
      · exact raises_error (.inr rfl)

theorem raises_timeoutOf (sec : List (Datum × Datum)) :
    Raises Fault.IsOfSettingsOrStray (timeoutOf sec) := by
  unfold timeoutOf
  split
  · exact raises_ok _
  · split
    · exact raises_error (.inr rfl)
    · exact raises_error (.inl trivial)
    · exact raises_ok _

theorem raises_levelOf (sec : List (Datum × Datum)) :
    Raises Fault.IsOfSettingsOrStray (levelOf sec) := by
  unfold levelOf Datum.written
  split
  · exact raises_ok _
  · split
    · exact raises_ok _
    · exact raises_error (.inr rfl)

theorem raises_discard_number (level : String) :
    Raises Fault.IsOfSettingsOrStray (discard (Level.number level) : Except Fault Unit) := by
  unfold Level.number
  split
  · exact raises_ok _
  · exact raises_error (.inl trivial)

theorem raises_ofMap (document : List (Datum × Datum)) :
    Raises Fault.IsOfSettingsOrStray (ofMap document) :=
  (raises_fields document "split").bind fun _ _ =>
    (raises_fields document "reconstruction").bind fun reconstruction _ =>
      (raises_timeoutOf reconstruction).bind fun _ _ =>
        (raises_fields document "logging").bind fun logging _ =>
          (raises_levelOf logging).bind fun _ _ =>
            (raises_discard_number _).bind fun _ _ => raises_ok _

theorem raises_ofBytes {read : Yaml.Reader} (hread : read.IsStray) (path : String)
    (bytes : ByteArray) : Raises Fault.IsOfSettingsOrStray (ofBytes path bytes read) := by
  unfold ofBytes
  split
  · exact raises_error (.inl trivial)
  · next e _ he => exact raises_error (.inr (hread bytes e he))
  · split
    · exact raises_ofMap []
    · split
      · exact raises_ofMap _
      · exact raises_error (.inl trivial)

/-! ### Documents with one setting -/

/-- The map of a document that gives one setting of a reconstruction and nothing else. -/
def oneMap (key : String) (v : Datum) : List (Datum × Datum) :=
  [(.text "reconstruction", .map [(.text key, v)])]

/-- The tokens of such a document, with the section in braces. -/
def oneTokens (key value : String) (isPlain : Bool) : List Token :=
  [.blockMapping, .key, .scalar "reconstruction" true, .value, .flowMapping, .key,
    .scalar key true, .value, .scalar value isPlain, .flowMappingEnd, .blockEnd]

theorem ofBytes_one {path text key value : String} {isPlain : Bool} {v : Datum}
    (hreturn : '\r' ∉ text.toList)
    (htokens : Token.ofText? text = some (oneTokens key value isPlain))
    (hkey : Kind.ofPlain key = .text)
    (hvalue : Datum.ofScalar value (if isPlain then Kind.ofPlain value else .text) = .ok v) :
    ofBytes path text.toUTF8 = ofMap (oneMap key v) := by
  -- The tokens are closed but for the texts in them, so the reader runs on them.
  have hnode : Node.ofText? text = some (some (.mapping .mapping
      [(.scalar (.ofPlain "reconstruction") "reconstruction", .mapping .mapping
        [(.scalar (.ofPlain key) key,
          .scalar (if isPlain then Kind.ofPlain value else .text) value)])])) := by
    rw [Node.ofText?, htokens]
    rfl
  have hsection : Kind.ofPlain "reconstruction" = .text := by decide +kernel
  have hdatum : Datum.ofBytes text.toUTF8 = .ok (.map (oneMap key v)) := by
    rw [Datum.ofBytes_toUTF8, Text.unifyLineEnds_of_not_mem hreturn, String.ofList_toList,
      Datum.ofText, hnode, hsection, hkey]
    simp only [Datum.ofNode, Datum.ofEntries, hvalue, Datum.isScalarOf]
    rfl
  rw [ofBytes, hdatum]
  rfl

/-- A time limit that is no number. -/
def nanText : String := "reconstruction: \x7btimeout-ms: .nan\x7d"

/-- An infinite time limit. -/
def infiniteText : String := "reconstruction: \x7btimeout-ms: .inf\x7d"

/-- Two floats without digits. -/
theorem ofScalar_special {limit : String} {cs : List Char} {x : Double}
    (hkind : Kind.ofPlain limit = .float)
    (hchars : (limit.toList.filter (· != '_')).map Char.toLower = cs)
    (hspecial : cs = ".nan".toList ∧ x = .nan ∨ cs = ".inf".toList ∧ x = .infinite false) :
    Datum.ofScalar limit (Kind.ofPlain limit) = .ok (.float x) := by
  have hfloat : Datum.floatOf limit = .ok x := by
    unfold Datum.floatOf
    rw [hchars]
    obtain ⟨rfl, rfl⟩ | ⟨rfl, rfl⟩ := hspecial <;> rfl
  rw [hkind, Datum.ofScalar, hfloat]
  rfl

theorem ofBytes_nanText (path : String) :
    ofBytes path nanText.toUTF8 = .error (.timeoutNotInteger .badNumber) :=
  ofBytes_one (by decide +kernel)
    (show _ = some (oneTokens "timeout-ms" ".nan" true) by decide +kernel) (by decide +kernel) <|
    ofScalar_special (by decide +kernel) (by decide +kernel)
      (.inl ⟨rfl, rfl⟩)

theorem ofBytes_infiniteText (path : String) :
    ofBytes path infiniteText.toUTF8 = .error .timeoutTooLarge :=
  ofBytes_one (by decide +kernel)
    (show _ = some (oneTokens "timeout-ms" ".inf" true) by decide +kernel) (by decide +kernel) <|
    ofScalar_special (by decide +kernel) (by decide +kernel)
      (.inr ⟨rfl, rfl⟩)

/-! ### Answers -/

/-- A result is settings, or one of their faults. -/
def IsAnswer (x : Except Fault Config) : Prop :=
  (∃ c, x = .ok c) ∨ ∃ e, x = .error e ∧ e.IsOfSettings

theorem isAnswer_iff {x : Except Fault Config} : IsAnswer x ↔ Raises Fault.IsOfSettings x := by
  unfold IsAnswer Raises
  cases x <;> simp

/-- **Malformed settings.** What is read from an existing file are settings, or the fault is one of
settings, exactly if nothing in the file spoils it. The same holds of the map of a document,
whatever values stand in it, if nothing in the map is stumbled over. -/
theorem isAnswer_ofFile {read : Yaml.Reader} (hread : read.IsStray) {files : Files} {path : String}
    {bytes : ByteArray} (hfile : files path = some (.file bytes)) :
    (IsAnswer (ofFile files path read) ↔ ¬Spoils read files path) ∧
      ∀ document : List (Datum × Datum), IsAnswer (ofMap document) ↔ ¬Stumbles document := by
  refine ⟨?_, fun document => ?_⟩
  · rw [isAnswer_iff, ← unforeseen_ofFile hread]
    refine raises_iff_not_unforeseen ?_
    rw [ofFile, Files.readBytes_eq_ok.2 hfile]
    exact raises_ofBytes hread path bytes
  · rw [isAnswer_iff, ← unforeseen_ofMap]
    exact raises_iff_not_unforeseen (raises_ofMap document)

/-- A time limit that is no number has a fault of settings, and nothing spoils the file. -/
theorem isAnswer_ofFile_nan : Yaml.Reader.IsStray Datum.ofBytes ∧
    Files.empty.write "a.yml" nanText "a.yml" = some (.file nanText.toUTF8) ∧
      IsAnswer (ofFile (Files.empty.write "a.yml" nanText) "a.yml") ∧
        ¬Spoils Datum.ofBytes (Files.empty.write "a.yml" nanText) "a.yml" := by
  have hfile := Files.empty.write_self "a.yml" nanText
  have hanswer : IsAnswer (ofFile (Files.empty.write "a.yml" nanText) "a.yml") := by
    rw [ofFile_write, ofBytes_nanText]
    exact .inr ⟨_, rfl, trivial⟩
  exact ⟨Yaml.isStray_ofBytes, hfile, hanswer,
    (isAnswer_ofFile Yaml.isStray_ofBytes hfile).1.1 hanswer⟩

/-- An infinite time limit in an existing file has a fault that is not one of settings. -/
theorem not_isAnswer_infinite :
    (∃ bytes, Files.empty.write "a.yml" infiniteText "a.yml" = some (.file bytes)) ∧
      ofFile (Files.empty.write "a.yml" infiniteText) "a.yml" = .error .timeoutTooLarge ∧
        ¬IsAnswer (ofFile (Files.empty.write "a.yml" infiniteText) "a.yml") := by
  have hread : ofFile (Files.empty.write "a.yml" infiniteText) "a.yml" =
      .error .timeoutTooLarge := by
    rw [ofFile_write, ofBytes_infiniteText]
  refine ⟨⟨_, Files.write_self _ _ _⟩, hread, ?_⟩
  rw [hread, isAnswer_iff]
  exact fun h => h _ rfl

end Config
end Horn
