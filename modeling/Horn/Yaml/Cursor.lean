/-!
# Positions in a document

A cursor is a position in a text, together with what lies behind it. Behind the end of the text a
cursor shows the null character, which no document contains.

Line ends are line feeds; the next-line character and the two separators of Unicode end a line as
well.
-/

namespace Horn
namespace Yaml

/-- Whether a character ends a line. -/
def isBreak (c : Char) : Bool :=
  c == '\n' || c == '\u0085' || c == '\u2028' || c == '\u2029'

/-- Whether a line or the text ends here. -/
def isEnd (c : Char) : Bool := c == '\x00' || isBreak c

/-- Whether a word that may contain tabs ends here. -/
def isSpaceOrEnd (c : Char) : Bool := c == ' ' || isEnd c

/-- Whether a word ends here. -/
def isBlankOrEnd (c : Char) : Bool := c == '\t' || isSpaceOrEnd c

/-- Whether a character may stand in a document. -/
def isAllowed (c : Char) : Bool :=
  let n := c.toNat
  n == 0x9 || n == 0xA || n == 0xD || (0x20 ≤ n && n ≤ 0x7E) || n == 0x85
    || (0xA0 ≤ n && n ≤ 0xFFFD) || 0x10000 ≤ n

/-- A position in a text. -/
structure Cursor where
  rest : List Char
  index : Nat
  line : Nat
  column : Nat

namespace Cursor

/-- The beginning of a text. -/
def ofText (text : String) : Cursor := ⟨text.toList, 0, 0, 0⟩

/-- The next character. -/
def peek (c : Cursor) : Char := c.rest.headD '\x00'

/-- The character `n` places further. -/
def peekAt (c : Cursor) (n : Nat) : Char := (c.rest[n]?).getD '\x00'

/-- The position behind the next character. A byte order mark takes no column. -/
def next (c : Cursor) : Cursor :=
  match c.rest with
  | [] => c
  | x :: xs =>
    if isBreak x then ⟨xs, c.index + 1, c.line + 1, 0⟩
    else ⟨xs, c.index + 1, c.line, if x == '\uFEFF' then c.column else c.column + 1⟩

/-- The position `n` characters further. -/
def advance (c : Cursor) : Nat → Cursor
  | 0 => c
  | n + 1 => c.next.advance n

/-- The characters of a class that follow, and the position behind them. -/
def span (c : Cursor) (p : Char → Bool) : List Char × Cursor :=
  let taken := c.rest.takeWhile p
  (taken, c.advance taken.length)

/-- The position behind the characters of a class that follow. -/
def skip (c : Cursor) (p : Char → Bool) : Cursor := (c.span p).2

/-- The line end that follows, if one does, and the position behind it. A next-line character
counts as a line feed. -/
def lineBreak (c : Cursor) : List Char × Cursor :=
  if isBreak c.peek then ([if c.peek == '\u0085' then '\n' else c.peek], c.next) else ([], c)

/-- Whether three characters that separate documents follow. -/
def atSeparator (c : Cursor) : Bool :=
  (c.rest.take 3 == ['-', '-', '-'] || c.rest.take 3 == ['.', '.', '.'])
    && isBlankOrEnd (c.peekAt 3)

/-- The position behind spaces, a comment, and nothing else up to the end of the line. -/
def endOfLine? (c : Cursor) : Option Cursor :=
  let c := c.skip (· == ' ')
  let c := if c.peek == '#' then c.skip (!isEnd ·) else c
  if isEnd c.peek then some c.lineBreak.2 else none

end Cursor

end Yaml
end Horn
