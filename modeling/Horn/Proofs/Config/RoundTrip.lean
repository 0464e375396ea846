import Horn.Proofs.Config.Malformed
import Horn.Proofs.Config.Written

/-!
# Settings that are written and read again

Settings that have been read can be written to a file and read from it again, unless an integer in
them is too long to be written (`Config.rewritten`). Flags, time limit and level are always found
again. The name of the oracle may be any value, and it is written without quotes, so that it depends
on its text whether it is found again: the text has to be a plain line, and as a plain scalar it has
to denote the name. `ofFile_write_iff` says this of every reader that follows the rules of
documents.
-/

namespace Horn

open Yaml (Datum Kind Reader followsYaml_ofBytes)

namespace Config

/-- What is read from a file after settings have been written to it. -/
def rewritten (read : Reader) (files : Files) (path : String) (c : Config) :
    Except Fault Config := do
  ofFile (files.write path (← c.written)) path read

section Rewritten

variable {read : Reader} {resolve : String → Except Fault Datum} {c c' : Config} {n : Nat}

/-- Settings that cannot be written are not found again. -/
theorem rewritten_eq_ok {files : Files} {path : String} : rewritten read files path c = .ok c' ↔
    (Text.isShort c.timeout = true ∧ c.solverName.isWritable = true) ∧
      ofBytes path c.text.toUTF8 read = .ok c' := by
  unfold rewritten written
  rw [← Bool.and_eq_true]
  cases Text.isShort c.timeout && c.solverName.isWritable with
  | false => exact iff_of_false nofun nofun
  | true =>
    rw [and_iff_right rfl]
    change ofFile (files.write path c.text) path read = .ok c' ↔ _
    rw [ofFile_write]

/-- **A name that is no plain line** is not found again. -/
theorem isPlainLine_of_ofBytes (hreader : read.FollowsYaml resolve)
    (hlevel : Level.number c.level = .ok n) (hname : c.solverName.isCollection = false)
    {path : String} (h : ofBytes path c.text.toUTF8 read = .ok c) :
    Yaml.isPlainLine c.solverName.toText.toList = true := by
  have hdocument : ∀ v, read c.text.toUTF8 = .ok v →
      v.Texts fun x => Yaml.isPlainLine x.toList = true ∨ x ≠ c.solverName.toText := by
    rw [text_eq_document]
    exact fun v => hreader.verbatim c.slot _ v (isPlain_slot hlevel)
  have htexts := texts_ofBytes hdocument (.inl (by decide)) h
  -- Only texts and foreign values can have a text that is no plain line.
  by_contra hplain
  refine hplain (Yaml.isPlainLine_toText hname (fun s hs => ?_) fun v hv => ?_)
  · rw [hs] at htexts hplain
    cases htexts with
    | text hs => exact hplain (hs.resolve_right fun hne => hne rfl)
  · have htext : (Datum.foreign v).toText = v.text := by simp [Datum.toText, Datum.quoted]
    rw [hv, htext] at hplain
    rw [hv, htext] at htexts
    cases htexts with
    | foreign hv => exact hplain (hv.resolve_right fun hne => hne rfl)

end Rewritten

/-- **Writing and reading again.** Settings that have been read, with a name that is neither a list
nor a map, are found again exactly if their integers can be written, and the text of the name is a
plain line that denotes the name. -/
theorem ofFile_write_iff {read : Reader} {resolve : String → Except Fault Datum}
    (hreader : read.FollowsYaml resolve) {files : Files} {path : String} {c : Config}
    (hread : ofFile files path read = .ok c) (hname : c.solverName.isCollection = false)
    (files' : Files) (path' : String) :
    rewritten read files' path' c = .ok c ↔
      (Text.isShort c.timeout = true ∧ c.solverName.isWritable = true) ∧
        Yaml.isPlainLine c.solverName.toText.toList = true ∧
          resolve c.solverName.toText = .ok c.solverName := by
  obtain ⟨n, hlevel⟩ := exists_number_of_ofFile hread
  rw [rewritten_eq_ok]
  refine and_congr_right fun hwritable => ?_
  by_cases hplain : Yaml.isPlainLine c.solverName.toText.toList = true
  · rw [ofBytes_text hreader hlevel hwritable.1 hplain, and_iff_right hplain]
    constructor
    · rintro ⟨name, hread, hc⟩
      rw [hread, ← hc]
    · exact fun h => ⟨_, h, rfl⟩
  · exact iff_of_false (fun h => hplain (isPlainLine_of_ofBytes hreader hlevel hname h))
      fun h => hplain h.1

/-- The standard settings are read from an empty file, and they are found again. -/
theorem ofFile_write_iff_default : Reader.FollowsYaml Datum.ofBytes Datum.ofPlain ∧
    ofFile (Files.empty.write "a.yml" "") "a.yml" = .ok default ∧
      default.solverName.isCollection = false ∧
        rewritten Datum.ofBytes Files.empty "b.yml" default = .ok default := by
  have hread : ofFile (Files.empty.write "a.yml" "") "a.yml" = .ok default := by
    have htokens : Yaml.Token.ofText? "" = some [] := by decide +kernel
    have hnode : Yaml.Node.ofText? "" = some none := by rw [Yaml.Node.ofText?, htokens]; rfl
    have hdatum : Datum.ofBytes "".toUTF8 = .ok .null := by
      rw [Datum.ofBytes_toUTF8, Text.unifyLineEnds_of_not_mem (by simp), String.ofList_toList,
        Datum.ofText, hnode]
    rw [ofFile_write, ofBytes, hdatum]
    change (discard (Level.number default.level) : Except Fault Unit).bind _ = _
    rw [number_standard]
    rfl
  refine ⟨followsYaml_ofBytes, hread, rfl,
    (ofFile_write_iff followsYaml_ofBytes hread rfl _ _).2
      ⟨by decide +kernel, by decide +kernel, ?_⟩⟩
  have hkind : Kind.ofPlain "proof_reconstruction" = .text := by decide +kernel
  change Datum.ofPlain "proof_reconstruction" = .ok (.text "proof_reconstruction")
  rw [Datum.ofPlain, hkind]
  rfl

/-! ### A numeral as a name -/

/-- A name in quotes that would be a number without them. -/
def numeralText : String := "reconstruction: \x7bsolver-name: \"10\"\x7d"

theorem ofBytes_numeralText (path : String) :
    ofBytes path numeralText.toUTF8 = .ok { default with solverName := .text "10" } := by
  have hread : ofBytes path numeralText.toUTF8 = ofMap (oneMap "solver-name" (.text "10")) :=
    ofBytes_one (by decide +kernel)
      (show _ = some (oneTokens "solver-name" "10" false) by decide +kernel) (by decide +kernel) rfl
  rw [hread]
  change (discard (Level.number default.level) : Except Fault Unit).bind _ = _
  rw [number_standard]
  rfl

/-- **A numeral as a name** is read as a text, written without its quotes, and read again as a
number. -/
theorem rewritten_numeral :
    ofFile (Files.empty.write "a.yml" numeralText) "a.yml" =
        .ok { default with solverName := .text "10" } ∧
      rewritten Datum.ofBytes Files.empty "b.yml" { default with solverName := .text "10" } =
        .ok { default with solverName := .int 10 } := by
  have hread : ofFile (Files.empty.write "a.yml" numeralText) "a.yml" =
      .ok { default with solverName := .text "10" } := by
    rw [ofFile_write, ofBytes_numeralText]
  refine ⟨hread, ?_⟩
  obtain ⟨n, hlevel⟩ := exists_number_of_ofFile hread
  have hten : toString (10 : Int) = "10" := by decide +kernel
  have hname := Yaml.ofScalar_toString 10
  rw [hten] at hname
  exact rewritten_eq_ok.2 ⟨by decide +kernel, (ofBytes_text followsYaml_ofBytes hlevel
    (by decide +kernel) hname.1 _).2 ⟨_, hname.2 (by decide +kernel), rfl⟩⟩

/-- So not all settings that have been read are found again. -/
theorem not_found_again : ¬∀ (files files' : Files) (path path' : String) (c : Config),
    ofFile files path = .ok c → rewritten Datum.ofBytes files' path' c = .ok c := by
  intro h
  have hagain := h _ Files.empty _ "b.yml" _ rewritten_numeral.1
  rw [rewritten_numeral.2] at hagain
  cases hagain

end Config
end Horn
