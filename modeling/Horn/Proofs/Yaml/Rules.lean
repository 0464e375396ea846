import Horn.Proofs.Yaml.Pasted
import Horn.Proofs.Yaml.Spelled

/-!
# Rules of documents

What is assumed of a reader of documents, and no more (`Reader.FollowsYaml`): what it makes of
sections of plain scalars, which of these denote truth values, integers and texts, and that only
plain lines stand for themselves. The reader of the command line follows these rules
(`followsYaml_ofBytes`).
-/

namespace Horn
namespace Yaml

open Node (Section)

/-- **A reader that follows the rules of documents,** given what a plain scalar denotes. -/
structure Reader.FollowsYaml (read : Reader) (resolve : String → Except Fault Datum) : Prop where
  /-- A document of sections whose values are plain lines is a map of maps, if its keys denote
  texts. It is refused if one of its values does not denote anything. -/
  sections : ∀ (comment : List Char) (ss : List Section),
    (∀ x ∈ comment, isCommentChar x = true) → ss ≠ [] → (∀ s ∈ ss, s.isPlain = true) →
    (∀ s ∈ ss, resolve (String.ofList s.1) = .ok (.text (String.ofList s.1)) ∧
      ∀ e ∈ s.2, resolve (String.ofList e.1) = .ok (.text (String.ofList e.1))) →
    ∀ v, read (documentOf comment ss).toUTF8 = .ok v ↔ Datum.ofSections resolve ss = .ok v
  /-- Truth values are spelled as words. -/
  truth : resolve "true" = .ok (.bool true) ∧ resolve "false" = .ok (.bool false)
  /-- Integers are spelled with decimal digits. -/
  integer : ∀ n, Text.isShort n = true → resolve (toString n) = .ok (.int n)
  /-- Words that are not reserved denote themselves. -/
  word : ∀ s, isPlainWord s = true → resolve s = .ok (.text s)
  /-- A text that is no plain line does not stand for itself: nothing in a document that it is
  pasted into is read as this text. -/
  verbatim : ∀ (d : Slot) (value : String) (v : Datum), d.IsPlain →
    read (d.document value).toUTF8 = .ok v →
      v.Texts fun x => isPlainLine x.toList = true ∨ x ≠ value

theorem ofPlain_truth :
    Datum.ofPlain "true" = .ok (.bool true) ∧ Datum.ofPlain "false" = .ok (.bool false) := by
  have hkind : ∀ s ∈ ["true", "false"], Kind.ofPlain s = .bool := by decide
  have hvalue : Implicit.truths.lookup ("true".map Char.toLower) = some true ∧
      Implicit.truths.lookup ("false".map Char.toLower) = some false := by
    decide +kernel
  rw [Datum.ofPlain, Datum.ofPlain, hkind _ (by simp), hkind _ (by simp), Datum.ofScalar,
    Datum.ofScalar, hvalue.1, hvalue.2]
  exact ⟨rfl, rfl⟩

/-- **The reader of the command line** follows the rules of documents. -/
theorem followsYaml_ofBytes : Reader.FollowsYaml Datum.ofBytes Datum.ofPlain where
  sections _ _ hcomment hne hss hkeys _ := by
    rw [Datum.ofBytes_documentOf hcomment hne hss hkeys]
  truth := ofPlain_truth
  integer n := (ofScalar_toString n).2
  word s hs := by
    rw [Datum.ofPlain, ofPlain_of_isPlainWord hs]
    rfl
  verbatim _ _ _ hd h := Slot.texts_document hd h

end Yaml
end Horn
