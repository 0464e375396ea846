/-!
# S-expressions

The notation in which problems are written: atoms, and lists of S-expressions in parentheses.

`Token.ofChars?` divides a text into tokens and `SExpr.ofTokens?` nests them; `SExpr.read?` is
both. A text that is not in the notation is refused as a whole.

Every step of the lexer leaves a shorter rest, and a list is closed by the parenthesis that
belongs to it: `SExpr.ofTokens?` carries the lists that are still open.
-/

namespace Horn
namespace Smt

/-- An atom of the notation. A symbol between bars is the same symbol as one without. -/
inductive Atom where
  | symbol (name : String)
  /-- A symbol behind a colon. -/
  | keyword (name : String)
  | numeral (value : Int)
  | decimal (value : Rat)
  /-- A bit string, in binary or hexadecimal digits, with the number that it denotes. -/
  | bits (width value : Nat)
  | text (value : String)
  deriving DecidableEq, Inhabited

/-- A piece of a text. -/
inductive Token where
  | opening
  | closing
  | atom (value : Atom)
  deriving DecidableEq, Inhabited

/-- An atom, or a list of S-expressions. -/
inductive SExpr where
  | atom (value : Atom)
  | list (items : List SExpr)
  deriving Inhabited

/-! ### Tokens -/

/-- The characters that separate tokens. -/
def isSpace (c : Char) : Bool := c == ' ' || c == '\t' || c == '\n' || c == '\r'

/-- The characters of a symbol that stands without bars. A digit may not be the first. -/
def isSymbolChar (c : Char) : Bool :=
  c.isAlphanum || "~!@$%^&*_-+=<>.?/".toList.contains c

/-- The value of digits in a base. -/
def digitsValue (base : Nat) (cs : List Char) : Nat :=
  cs.foldl (fun n c => n * base + (if c.isDigit then c.toNat - '0'.toNat
    else c.toLower.toNat - 'a'.toNat + 10)) 0

/-- A number from the digits before the point and, if there is a point, those behind it. -/
def numberAtom (negative : Bool) (whole : List Char) (fraction : Option (List Char)) : Atom :=
  let signed (n : Nat) : Int := if negative then -(n : Int) else n
  match fraction with
  | none => .numeral (signed (digitsValue 10 whole))
  | some cs => .decimal (mkRat (signed (digitsValue 10 (whole ++ cs))) (Nat.pow 10 cs.length))

/-- The number at the front of a text, and the rest. -/
def splitNumber (negative : Bool) (cs : List Char) : Atom × List Char :=
  let whole := cs.takeWhile Char.isDigit
  match cs.dropWhile Char.isDigit with
  | '.' :: rest =>
    (numberAtom negative whole (some (rest.takeWhile Char.isDigit)), rest.dropWhile Char.isDigit)
  | rest => (numberAtom negative whole none, rest)

/-- What stands before the next bar, and what behind it. A bar behind a backslash does not
count. -/
def splitBar (escaped : Bool) : List Char → Option (List Char × List Char)
  | [] => none
  | c :: cs =>
    if c == '|' && !escaped then some ([], cs)
    else (splitBar (c == '\\') cs).map fun (name, rest) => (c :: name, rest)

/-- The text up to the closing quote, and what stands behind it. A quote inside the text is
written twice. -/
def splitText : List Char → Option (List Char × List Char)
  | [] => none
  | '"' :: '"' :: cs => (splitText cs).map fun (text, rest) => ('"' :: text, rest)
  | c :: cs =>
    if c == '"' then some ([], cs)
    else (splitText cs).map fun (text, rest) => (c :: text, rest)

/-- The characters of a class at the front of a text, and the rest. -/
def splitClass (p : Char → Bool) (cs : List Char) : List Char × List Char :=
  (cs.takeWhile p, cs.dropWhile p)

/-- Whether a character is a digit in base sixteen. -/
def isHexDigit (c : Char) : Bool :=
  c.isDigit || ('a' ≤ c && c ≤ 'f') || ('A' ≤ c && c ≤ 'F')

/-- A bit string of at least one digit; each digit stands for `width` bits. -/
def bitsAtom? (width : Nat) (digits : List Char) : Option Atom :=
  if digits.isEmpty then none
  else some (.bits (width * digits.length) (digitsValue (Nat.pow 2 width) digits))

namespace Token

/-- The first token of a text that starts with neither space nor a comment, and the rest. -/
def next? : List Char → Option (Token × List Char)
  | [] => none
  | '(' :: cs => some (.opening, cs)
  | ')' :: cs => some (.closing, cs)
  | '|' :: cs => (splitBar false cs).map fun (name, rest) =>
      (.atom (.symbol (String.ofList name)), rest)
  | '"' :: cs => (splitText cs).map fun (text, rest) =>
      (.atom (.text (String.ofList text)), rest)
  | '#' :: 'x' :: cs =>
    (bitsAtom? 4 (cs.takeWhile isHexDigit)).map fun a => (.atom a, cs.dropWhile isHexDigit)
  | '#' :: 'b' :: cs =>
    let isBit (c : Char) := c == '0' || c == '1'
    (bitsAtom? 1 (cs.takeWhile isBit)).map fun a => (.atom a, cs.dropWhile isBit)
  | ':' :: cs =>
    let (name, rest) := splitClass isSymbolChar cs
    if name.isEmpty then none else some (.atom (.keyword (String.ofList name)), rest)
  | c :: cs =>
    if c == '-' && ((cs.head?.map Char.isDigit).getD false) then
      let (number, rest) := splitNumber true cs
      some (.atom number, rest)
    else if c.isDigit then
      let (number, rest) := splitNumber false (c :: cs)
      some (.atom number, rest)
    else if isSymbolChar c then
      let (name, rest) := splitClass isSymbolChar cs
      some (.atom (.symbol (String.ofList (c :: name))), rest)
    else none

/-- Divides a text into tokens, at most `fuel` of them. Comments run from a semicolon to the end
of the line. -/
def ofCharsIn? : Nat → List Char → Option (List Token)
  | _, [] => some []
  | 0, _ :: _ => none
  | fuel + 1, c :: cs =>
    if isSpace c then ofCharsIn? fuel cs
    else if c == ';' then ofCharsIn? fuel (cs.dropWhile (· != '\n'))
    else (next? (c :: cs)).bind fun (token, rest) => (ofCharsIn? fuel rest).map (token :: ·)

/-- Divides a text into tokens. Each of them takes at least one character, so that the number of
characters bounds their number. -/
def ofChars? (cs : List Char) : Option (List Token) := ofCharsIn? cs.length cs

end Token

namespace SExpr

/-- Nests tokens. `outer` holds the beginnings of the lists around the current one, innermost
first, and `current` the items of the current one; all are in reverse. -/
def nest? (outer : List (List SExpr)) (current : List SExpr) : List Token → Option (List SExpr)
  | [] => if outer.isEmpty then some current.reverse else none
  | .opening :: ts => nest? (current :: outer) [] ts
  | .closing :: ts =>
    match outer with
    | [] => none
    | before :: outer => nest? outer (.list current.reverse :: before) ts
  | .atom a :: ts => nest? outer (.atom a :: current) ts

/-- The S-expressions that a list of tokens spells. -/
def ofTokens? (ts : List Token) : Option (List SExpr) := nest? [] [] ts

/-- The S-expressions of a text. -/
def read? (text : String) : Option (List SExpr) := (Token.ofChars? text.toList).bind ofTokens?

end SExpr

end Smt
end Horn
