import Horn.Fault

/-!
# Files

What programs read: a path leads to a file, which is a sequence of bytes, to a directory, or to
nothing. `Files` is a snapshot of what lies at each path.

A text file is in UTF-8, and its line ends may be of any of the three kinds; `Files.readText`
answers with line feeds only.
-/

namespace Horn

/-- What lies at a path. -/
inductive FileNode where
  | file (bytes : ByteArray)
  | directory

/-- What lies at each path; `none` where there is nothing. -/
abbrev Files := String → Option FileNode

namespace Text

/-- A line feed in place of each line end, be it a carriage return, a line feed or both. -/
def unifyLineEnds : List Char → List Char
  | [] => []
  | '\r' :: '\n' :: cs => '\n' :: unifyLineEnds cs
  | c :: cs => (if c == '\r' then '\n' else c) :: unifyLineEnds cs

/-- Where there is no carriage return, all line ends are line feeds. -/
theorem unifyLineEnds_of_not_mem {cs : List Char} (h : '\r' ∉ cs) : unifyLineEnds cs = cs := by
  fun_induction unifyLineEnds cs with
  | case1 => rfl
  | case2 cs => exact absurd List.mem_cons_self h
  | case3 c cs hne ih =>
    rw [List.mem_cons, not_or] at h
    rw [ih h.2, beq_eq_false_iff_ne.2 (Ne.symm h.1)]
    rfl

/-- The text that bytes spell in UTF-8. -/
def ofBytes (bytes : ByteArray) : Except Fault String :=
  match String.fromUTF8? bytes with
  | some s => .ok (String.ofList (unifyLineEnds s.toList))
  | none => .error .notText

end Text

namespace Path

/-- The parts of a path between slashes; empty parts and single dots do not count. -/
def parts (path : String) : List String :=
  (path.splitOn "/").filter fun part => part != "" && part != "."

/-- The short spelling of a path; the empty path is the current directory. -/
def normal (path : String) : String :=
  let path' := "/".intercalate (parts path)
  if path.startsWith "/" then "/" ++ path' else if path'.isEmpty then "." else path'

/-- The paths of the directories that a path goes through. -/
def above (path : String) : List String :=
  let start := if path.startsWith "/" then "/" else ""
  (List.range (parts path).length).tail.map fun n => start ++ "/".intercalate ((parts path).take n)

/-- The last part of a path without its extension. A dot at either end of the name starts none. -/
def stem (path : String) : String :=
  let name := ((parts path).getLast?).getD ""
  let base := (name.toList.reverse.dropWhile (· != '.')).drop 1
  if base.isEmpty || name.endsWith "." then name else String.ofList base.reverse

end Path

namespace Files

/-- Whether a file lies at a path. -/
def hasFile (files : Files) (path : String) : Bool :=
  match files path with
  | some (.file _) => true
  | _ => false

/-- The bytes of the file at a path. -/
def readBytes (files : Files) (path : String) : Except Fault ByteArray :=
  match files path with
  | none =>
    if (Path.above path).any files.hasFile then .error (.notDirectory path)
    else .error (.fileMissing path)
  | some .directory => .error (.isDirectory path)
  | some (.file bytes) => .ok bytes

/-- The text of the file at a path. -/
def readText (files : Files) (path : String) : Except Fault String :=
  (files.readBytes path).bind Text.ofBytes

end Files

end Horn
