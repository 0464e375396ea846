import Horn.Yaml.Cursor

/-!
# Scalars

The three ways to write a text: plain, quoted, and as a block of lines.

A line end inside a plain or a quoted scalar is folded: one alone becomes a blank, and of several
the first is dropped. A literal block keeps its line ends, and a folded block folds those between
lines that do not start with a blank.

Each loop takes at least one character in a step, so that the length of the text bounds it.
-/

namespace Horn
namespace Yaml

/-- What folding makes of a line end and of the further line ends behind it. -/
def fold (first more : List Char) : List Char :=
  (if first != ['\n'] then first else if more.isEmpty then [' '] else []) ++ more

/-! ### Plain scalars -/

/-- Whether the word of a plain scalar ends in front of `c`, behind which `after` stands. -/
def plainStops (flow : Bool) (c after : Char) : Bool :=
  isBlankOrEnd c
    || (c == ':' && (isBlankOrEnd after || (flow && ",[]\x7b\x7d".toList.contains after)))
    || (flow && ",?[]\x7b\x7d".toList.contains c)

/-- The length of the word at the front of a text. -/
def plainLength (flow : Bool) : List Char → Nat
  | [] => 0
  | c :: cs => if plainStops flow c (cs.headD '\x00') then 0 else plainLength flow cs + 1

/-- What stands between two words of a plain scalar. -/
structure Gap where
  text : List Char
  /-- Whether a line ends in the gap. -/
  broken : Bool
  cursor : Cursor

/-- The further line ends of a gap, and whether a document ends there. -/
def gapBreaks (c : Cursor) (breaks : List Char) : Nat → List Char × Bool × Cursor
  | 0 => (breaks, false, c)
  | fuel + 1 =>
    if c.peek == ' ' then gapBreaks c.next breaks fuel
    else if isBreak c.peek then
      let (b, c) := c.lineBreak
      if c.atSeparator then ([], true, c) else gapBreaks c (breaks ++ b) fuel
    else (breaks, false, c)

/-- The gap behind a word. It is empty where the document ends. -/
def gap (c : Cursor) : Gap :=
  let (spaces, c) := c.span (· == ' ')
  if isBreak c.peek then
    let (first, c) := c.lineBreak
    if c.atSeparator then ⟨[], true, c⟩
    else
      let (more, ended, c) := gapBreaks c [] c.rest.length
      ⟨if ended then [] else fold first more, true, c⟩
  else ⟨spaces, false, c⟩

/-- A scalar that has been read. -/
structure Scalar where
  text : List Char
  /-- Whether a simple key may follow. -/
  keyAllowed : Bool
  cursor : Cursor

/-- The words of a plain scalar. `spaces` is the gap in front of the next word. -/
def plainWords (flow : Bool) (indent : Int) (s : Scalar) (spaces : List Char) : Nat → Scalar
  | 0 => s
  | fuel + 1 =>
    let n := plainLength flow s.cursor.rest
    if s.cursor.peek == '#' || n == 0 then s
    else
      let word := s.cursor.rest.take n
      let g := gap (s.cursor.advance n)
      let s : Scalar := ⟨s.text ++ spaces ++ word, g.broken, g.cursor⟩
      if g.text.isEmpty || g.cursor.peek == '#'
        || (!flow && decide ((g.cursor.column : Int) < indent)) then s
      else plainWords flow indent s g.text fuel

/-- The plain scalar at a position. Outside of brackets its further lines are indented by `indent`
at least. -/
def plain (flow : Bool) (indent : Int) (c : Cursor) : Scalar :=
  plainWords flow indent ⟨[], false, c⟩ [] c.rest.length

/-! ### Quoted scalars -/

/-- The value of a digit in base sixteen. -/
def hexDigit? (c : Char) : Option Nat :=
  if c.isDigit then some (c.toNat - '0'.toNat)
  else if 'a' ≤ c ∧ c ≤ 'f' then some (c.toNat - 'a'.toNat + 10)
  else if 'A' ≤ c ∧ c ≤ 'F' then some (c.toNat - 'A'.toNat + 10)
  else none

/-- The number that digits in base sixteen denote. -/
def hexValue? (cs : List Char) : Option Nat :=
  cs.foldlM (fun n c => (hexDigit? c).map (16 * n + ·)) 0

/-- The character that a one-letter escape stands for. -/
def escaped? : Char → Option Char
  | '0' => some '\x00'
  | 'a' => some '\x07'
  | 'b' => some '\x08'
  | 't' | '\t' => some '\t'
  | 'n' => some '\n'
  | 'v' => some '\x0b'
  | 'f' => some '\x0c'
  | 'r' => some '\r'
  | 'e' => some '\x1b'
  | ' ' => some ' '
  | '"' => some '"'
  | '\\' => some '\\'
  | '/' => some '/'
  | 'N' => some '\u0085'
  | '_' => some '\u00a0'
  | 'L' => some '\u2028'
  | 'P' => some '\u2029'
  | _ => none

/-- The number of digits behind the letter of a numeric escape. -/
def escapeLength? : Char → Option Nat
  | 'x' => some 2
  | 'u' => some 4
  | 'U' => some 8
  | _ => none

/-- The line ends at the front of a quoted scalar's line; a document may not end there. -/
def quotedBreaks (c : Cursor) (breaks : List Char) : Nat → Option (List Char × Cursor)
  | 0 => none
  | fuel + 1 =>
    if c.atSeparator then none
    else
      let c := c.skip fun x => x == ' ' || x == '\t'
      if isBreak c.peek then
        let (b, c) := c.lineBreak
        quotedBreaks c (breaks ++ b) fuel
      else some (breaks, c)

/-- The escape behind a backslash. -/
def escape? (c : Cursor) : Option (List Char × Cursor) :=
  match escaped? c.peek, escapeLength? c.peek with
  | some x, _ => some ([x], c.next)
  | none, some n => do
    let digits := c.next.rest.take n
    let code ← hexValue? digits
    if digits.length = n ∧ code.isValidChar then some ([Char.ofNat code], c.next.advance n)
    else none
  | none, none =>
    if isBreak c.peek then quotedBreaks c.lineBreak.2 [] (c.rest.length + 1) else none

/-- The characters of a quoted scalar up to a blank, a line end or the closing quote. -/
def quotedWord (double : Bool) (c : Cursor) (acc : List Char) : Nat → Option (List Char × Cursor)
  | 0 => none
  | fuel + 1 =>
    let x := c.peek
    if !double && x == '\'' && c.peekAt 1 == '\'' then
      quotedWord double (c.advance 2) (acc ++ ['\'']) fuel
    else if double && x == '\\' then do
      let (xs, c) ← escape? c.next
      quotedWord double c (acc ++ xs) fuel
    else if isBlankOrEnd x || x == (if double then '"' else '\'') then some (acc, c)
    else quotedWord double c.next (acc ++ [x]) fuel

/-- The blanks and line ends between two words of a quoted scalar. -/
def quotedGap (c : Cursor) : Option (List Char × Cursor) :=
  let (blanks, c) := c.span fun x => x == ' ' || x == '\t'
  if c.peek == '\x00' then none
  else if isBreak c.peek then do
    let (first, c) := c.lineBreak
    let (more, c) ← quotedBreaks c [] (c.rest.length + 1)
    some (fold first more, c)
  else some (blanks, c)

/-- The words of a quoted scalar up to its closing quote. -/
def quotedWords (double : Bool) (c : Cursor) (acc : List Char) : Nat → Option (List Char × Cursor)
  | 0 => none
  | fuel + 1 => do
    let (word, c) ← quotedWord double c [] (c.rest.length + 1)
    if c.peek == (if double then '"' else '\'') then some (acc ++ word, c.next)
    else do
      let (blanks, c) ← quotedGap c
      quotedWords double c (acc ++ word ++ blanks) fuel

/-- The quoted scalar at a position. -/
def quoted (double : Bool) (c : Cursor) : Option Scalar :=
  (quotedWords double c.next [] (c.rest.length + 1)).map fun (text, c) => ⟨text, false, c⟩

/-! ### Block scalars -/

/-- What becomes of the line ends at the end of a block. -/
inductive Chomping where
  | strip
  | clip
  | keep
  deriving DecidableEq

/-- The sign of a chomping indicator. -/
def chomping? : Char → Option Chomping
  | '+' => some .keep
  | '-' => some .strip
  | _ => none

/-- The indicators behind the sign of a block scalar: how it ends, and how far it is indented. -/
def indicators? (c : Cursor) : Option (Chomping × Option Nat × Cursor) := do
  let digit (c : Cursor) : Option (Option Nat × Cursor) :=
    if c.peek == '0' then none
    else if c.peek.isDigit then some (some (c.peek.toNat - '0'.toNat), c.next)
    else some (none, c)
  let (chomp, increment, c) ← match chomping? c.peek with
    | some chomp => do
      let (increment, c) ← digit c.next
      some (chomp, increment, c)
    | none => do
      let (increment, c) ← digit c
      match increment, chomping? c.peek with
      | some n, some chomp => some (chomp, some n, c.next)
      | _, _ => some (.clip, increment, c)
  if isSpaceOrEnd c.peek then some (chomp, increment, c) else none

/-- The empty lines in front of a block whose indentation is not given, and the greatest column
that a blank reaches. -/
def blockIndentation (c : Cursor) (breaks : List Char) (column : Nat) :
    Nat → List Char × Nat × Cursor
  | 0 => (breaks, column, c)
  | fuel + 1 =>
    if c.peek == ' ' then blockIndentation c.next breaks (max column c.next.column) fuel
    else if isBreak c.peek then
      let (b, c) := c.lineBreak
      blockIndentation c (breaks ++ b) column fuel
    else (breaks, column, c)

/-- Skips blanks up to a column. -/
def skipTo (indent : Int) (c : Cursor) : Cursor :=
  c.advance ((c.rest.take (indent - c.column).toNat).takeWhile (· == ' ')).length

/-- The empty lines between the lines of a block. -/
def blockBreaks (indent : Int) (c : Cursor) (breaks : List Char) : Nat → List Char × Cursor
  | 0 => (breaks, c)
  | fuel + 1 =>
    let c := skipTo indent c
    if isBreak c.peek then
      let (b, c) := c.lineBreak
      blockBreaks indent c (breaks ++ b) fuel
    else (breaks, c)

/-- The lines of a block: the text, the line end of the last line, and the empty lines at the
end. -/
def blockLines (folded : Bool) (indent : Int) (c : Cursor) (acc last breaks : List Char) :
    Nat → List Char × List Char × List Char × Cursor
  | 0 => (acc, last, breaks, c)
  | fuel + 1 =>
    let within (c : Cursor) : Bool := (c.column : Int) == indent && c.peek != '\x00'
    let isBlank (x : Char) : Bool := x == ' ' || x == '\t'
    if !within c then (acc, last, breaks, c)
    else
      let (line, after) := c.span (!isEnd ·)
      let (last, next) := after.lineBreak
      let (more, next) := blockBreaks indent next [] (next.rest.length + 1)
      let acc := acc ++ breaks ++ line
      if !within next then (acc, last, more, next)
      else if folded && last == ['\n'] && !isBlank c.peek && !isBlank next.peek then
        blockLines folded indent next (if more.isEmpty then acc ++ [' '] else acc) last more fuel
      else blockLines folded indent next (acc ++ last) last more fuel

/-- The block scalar at a position, inside a collection that is indented by `outer`. -/
def block (folded : Bool) (outer : Int) (c : Cursor) : Option Scalar := do
  let (chomp, increment, c) ← indicators? c.next
  let c ← c.endOfLine?
  let least : Int := max (outer + 1) 1
  let (breaks, indent, c) := match increment with
    | none =>
      let (breaks, column, c) := blockIndentation c [] 0 (c.rest.length + 1)
      (breaks, max least column, c)
    | some n =>
      let indent := least + n - 1
      let (breaks, c) := blockBreaks indent c [] (c.rest.length + 1)
      (breaks, indent, c)
  let (text, last, more, c) := blockLines folded indent c [] [] breaks (c.rest.length + 1)
  let tail := match chomp with
    | .strip => []
    | .clip => last
    | .keep => last ++ more
  some ⟨text ++ tail, true, c⟩

end Yaml
end Horn
