import Horn.Config.Level
import Horn.Files
import Horn.Split.Splitter
import Horn.Yaml.Datum

/-!
# Settings

The settings for splitting, reconstruction and logging. `Config.ofMap` reads them from the map of a
document in which every key is optional; `Config.lines` writes them as such a document. Documents
are read by any `Yaml.Reader`.

A key may be spelled with a dash or with an underscore, and the first spelling wins. A flag is true
if its value counts as true. The name of the oracle may be any value.
-/

namespace Horn

open Yaml (Datum)

/-- The settings of a run. -/
structure Config where
  split : SplitConfig
  /-- The time limit of a reconstruction, in milliseconds. -/
  timeout : Int
  /-- The name of the oracle of a reconstruction. -/
  solverName : Datum
  /-- The name of the level from which on records are shown. -/
  level : String
  deriving Inhabited

namespace Config

/-- The settings that hold unless others are given. -/
def default : Config := ⟨.default, 10000, .text "proof_reconstruction", "WARNING"⟩

/-! ### Reading -/

/-- The section of a document with a name. A section that counts as false is empty, and any other
has to be a map. -/
def fields (document : List (Datum × Datum)) (name : String) :
    Except Fault (List (Datum × Datum)) :=
  match Datum.field? document name with
  | none => .ok []
  | some v =>
    if !v.isTrue then .ok []
    else match v with
      | .map entries => .ok entries
      | _ => .error .notMapping

/-- The value of the first of some keys that a section has. -/
def first? (sec : List (Datum × Datum)) (keys : List String) : Option Datum :=
  keys.findSome? (Datum.field? sec)

/-- The flag with the first of some keys that a section has. -/
def flag (sec : List (Datum × Datum)) (keys : List String) (standard : Bool) : Bool :=
  ((first? sec keys).map Datum.isTrue).getD standard

/-- The integer that a value stands for; a number with a point is cut off behind it. -/
def integer : Datum → Except Fault Int
  | .bool b => .ok (if b then 1 else 0)
  | .int n => .ok n
  | .float .nan => .error .badNumber
  | .float x =>
    match x.truncate? with
    | some n => .ok n
    | none => .error .timeoutTooLarge
  | .text s =>
    match Text.shortInteger? s with
    | some n => .ok n
    | none => .error .badNumber
  | .foreign v =>
    match v.integer with
    | some (some n) => .ok n
    | some none => .error .badNumber
    | none => .error .badNumberType
  | _ => .error .badNumberType

/-- The time limit of a section. -/
def timeoutOf (sec : List (Datum × Datum)) : Except Fault Int :=
  match first? sec ["timeout-ms", "timeout_ms"] with
  | none => .ok default.timeout
  | some v =>
    match integer v with
    | .error .timeoutTooLarge => .error .timeoutTooLarge
    | .error cause => .error (.timeoutNotInteger cause)
    | .ok n => .ok n

/-- The level of a section, as its text. -/
def levelOf (sec : List (Datum × Datum)) : Except Fault String :=
  match first? sec ["level"] with
  | none => .ok default.level
  | some v => v.written

/-- The settings in the map of a document. -/
def ofMap (document : List (Datum × Datum)) : Except Fault Config := do
  let split ← fields document "split"
  let reconstruction ← fields document "reconstruction"
  let timeout ← timeoutOf reconstruction
  let logging ← fields document "logging"
  let level ← levelOf logging
  discard (Level.number level)
  pure {
    split := ⟨flag split ["enabled"] true, flag split ["sort", "split-sort", "split_sort"] true,
      flag split ["infer"] true, flag split ["step"] false⟩
    timeout
    solverName := (first? reconstruction ["solver-name", "solver_name"]).getD default.solverName
    level }

/-- The settings in the bytes of a document. An empty document gives the standard settings. -/
def ofBytes (path : String) (bytes : ByteArray) (read : Yaml.Reader := Datum.ofBytes) :
    Except Fault Config :=
  match read bytes with
  | .error .badDocument => .error (.unreadableConfig path .badDocument)
  | .error fault => .error fault
  | .ok v =>
    if !v.isTrue then ofMap []
    else match v with
      | .map entries => ofMap entries
      | _ => .error (.configNotMapping path)

/-- The settings in a file. -/
def ofFile (files : Files) (path : String) (read : Yaml.Reader := Datum.ofBytes) :
    Except Fault Config := do
  ofBytes path (← files.readBytes path) read

/-- The names of the files in which settings are looked for. -/
def fileNames : List String := [".chcsplit.yml", ".chcsplit.yaml"]

/-- The settings in the first of these files that exists, or the standard settings. -/
def load (files : Files) (read : Yaml.Reader := Datum.ofBytes) : Except Fault Config :=
  match fileNames.find? fun name => (files name).isSome with
  | some name => ofFile files name read
  | none => .ok default

/-! ### Writing -/

/-- A flag in a document. -/
def flagText (b : Bool) : String := if b then "true" else "false"

/-- The settings as a document, line by line. The values are not quoted, so that some names of an
oracle do not read back. -/
def lines (c : Config) : List String := [
  "# .chcsplit.yml",
  "",
  "split:",
  "  enabled: " ++ flagText c.split.enabled,
  "  sort: " ++ flagText c.split.sort,
  "  infer: " ++ flagText c.split.infer,
  "  step: " ++ flagText c.split.step,
  "",
  "reconstruction:",
  "  timeout-ms: " ++ toString c.timeout,
  "  solver-name: " ++ c.solverName.toText,
  "",
  "logging:",
  "  level: " ++ c.level,
  ""]

/-- The settings as the text of a document. -/
def text (c : Config) : String := "\n".intercalate c.lines

/-- The settings as the text of a document, if all values in them can be written. -/
def written (c : Config) : Except Fault String :=
  if Text.isShort c.timeout && c.solverName.isWritable then .ok c.text else .error .badNumber

/-- Whether settings are equal. -/
def same (c d : Config) : Bool :=
  c.split == d.split && c.timeout == d.timeout && c.solverName.same d.solverName
    && c.level == d.level

end Config

end Horn
