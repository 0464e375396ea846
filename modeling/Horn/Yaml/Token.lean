import Horn.Yaml.Scalar

/-!
# Tokens of a document

`Token.ofText?` divides a document into tokens. Indentation appears as tokens of its own: a block
collection starts with one of the two `block…` tokens and ends with `blockEnd`, and each key of a
mapping has a token `key` in front of it.

That something is a key shows only at the colon behind it. So the scanner remembers where a simple
key may have started, for the collection that is open and each one around it, and puts the token
there when it finds the colon.
-/

namespace Horn
namespace Yaml

/-- A tag as it is written: a suffix, with the handle of a prefix or without. -/
structure RawTag where
  handle : Option String
  suffix : String
  deriving DecidableEq, Inhabited

/-- A directive in front of a document. -/
inductive Directive where
  | version (major : Nat)
  | tag (handle uri : String)
  | other
  deriving DecidableEq, Inhabited

/-- A token. -/
inductive Token where
  | directive (d : Directive)
  | documentStart
  | documentEnd
  | blockSequence
  | blockMapping
  | blockEnd
  | flowSequence
  | flowSequenceEnd
  | flowMapping
  | flowMappingEnd
  | blockEntry
  | flowEntry
  | key
  | value
  | alias (name : String)
  | anchor (name : String)
  | tag (t : RawTag)
  | scalar (text : String) (plain : Bool)
  deriving DecidableEq, Inhabited

/-! ### Names and tags -/

/-- The characters of a name. -/
def isNameChar (c : Char) : Bool := c.isAlphanum || c == '-' || c == '_'

/-- The characters of a tag's suffix. -/
def isUriChar (c : Char) : Bool :=
  c.isAlphanum || "-;/?:@&=+$,_.!~*'()[]".toList.contains c

/-- The name of an anchor behind its sign. -/
def anchorName? (c : Cursor) : Option (String × Cursor) :=
  let (name, c) := c.next.span isNameChar
  if name.isEmpty || !(isBlankOrEnd c.peek || "?:,]\x7d%@`".toList.contains c.peek) then none
  else some (String.ofList name, c)

/-- The bytes that percent signs with two digits spell. -/
def uriEscapes? (c : Cursor) (acc : List UInt8) : Nat → Option (List UInt8 × Cursor)
  | 0 => none
  | fuel + 1 =>
    if c.peek == '%' then do
      let n ← hexValue? (c.next.rest.take 2)
      if 2 ≤ c.next.rest.length then uriEscapes? (c.advance 3) (acc ++ [n.toUInt8]) fuel else none
    else some (acc, c)

/-- The characters of a suffix. -/
def uriChars? (c : Cursor) (acc : List Char) : Nat → Option (List Char × Cursor)
  | 0 => none
  | fuel + 1 =>
    if c.peek == '%' then do
      let (bytes, c) ← uriEscapes? c [] (c.rest.length + 1)
      let s ← String.fromUTF8? ⟨bytes.toArray⟩
      uriChars? c (acc ++ s.toList) fuel
    else if isUriChar c.peek then uriChars? c.next (acc ++ [c.peek]) fuel
    else some (acc, c)

/-- The suffix of a tag; it is not empty. -/
def uri? (c : Cursor) : Option (String × Cursor) := do
  let (cs, c) ← uriChars? c [] (c.rest.length + 1)
  if cs.isEmpty then none else some (String.ofList cs, c)

/-- The handle of a tag, with its exclamation marks. -/
def handle? (c : Cursor) : Option (String × Cursor) :=
  if c.peek != '!' then none
  else if c.peekAt 1 == ' ' then some ("!", c.next)
  else
    let (name, after) := c.next.span isNameChar
    if after.peek == '!' then some ("!" ++ String.ofList name ++ "!", after.next) else none

/-- The tag at a position. -/
def tag? (c : Cursor) : Option (RawTag × Cursor) := do
  let x := c.peekAt 1
  let (t, c) ←
    if x == '<' then do
      let (suffix, c) ← uri? (c.advance 2)
      if c.peek == '>' then some (RawTag.mk none suffix, c.next) else none
    else if isBlankOrEnd x then some (RawTag.mk none "!", c.next)
    else if (c.next.rest.takeWhile (!isSpaceOrEnd ·)).contains '!' then do
      let (handle, c) ← handle? c
      let (suffix, c) ← uri? c
      some (RawTag.mk (some handle) suffix, c)
    else do
      let (suffix, c) ← uri? c.next
      some (RawTag.mk (some "!") suffix, c)
  if isSpaceOrEnd c.peek then some (t, c) else none

/-! ### Directives -/

/-- A number in decimal digits. -/
def number? (c : Cursor) : Option (Nat × Cursor) :=
  let (ds, c) := c.span Char.isDigit
  if ds.isEmpty then none else some (ds.foldl (fun n d => 10 * n + (d.toNat - '0'.toNat)) 0, c)

/-- The directive behind a percent sign. -/
def directive? (c : Cursor) : Option (Directive × Cursor) := do
  let (name, c) := c.next.span isNameChar
  if name.isEmpty || !isSpaceOrEnd c.peek then none
  let blank (c : Cursor) : Cursor := c.skip (· == ' ')
  let (d, c) ←
    if name == "YAML".toList then do
      let (major, c) ← number? (blank c)
      if c.peek != '.' then none
      let (_, c) ← number? c.next
      if isSpaceOrEnd c.peek then some (Directive.version major, c) else none
    else if name == "TAG".toList then do
      let (handle, c) ← handle? (blank c)
      if c.peek != ' ' then none
      let (uri, c) ← uri? (blank c)
      if isSpaceOrEnd c.peek then some (Directive.tag handle uri, c) else none
    else some (Directive.other, c.skip (!isEnd ·))
  let c ← c.endOfLine?
  some (d, c)

/-! ### The scanner -/

/-- Where a simple key may have started. -/
structure PossibleKey where
  /-- The number of tokens in front of it. -/
  position : Nat
  /-- Whether it has to turn out to be a key. -/
  required : Bool
  index : Nat
  line : Nat
  column : Nat

/-- The state between two tokens. -/
structure Scanner where
  cursor : Cursor
  tokens : Array Token
  /-- The columns of the open block collections, innermost first. -/
  indents : List Nat
  /-- Whether a simple key may start here. -/
  keyAllowed : Bool
  /-- The possible key outside of brackets. -/
  blockKey : Option PossibleKey
  /-- The possible keys inside the open brackets, innermost first. -/
  flowKeys : List (Option PossibleKey)

namespace Scanner

/-- The state in front of a text. -/
def start (text : String) : Scanner := ⟨.ofText text, #[], [], true, none, []⟩

/-- Whether a bracket is open. -/
def inFlow (s : Scanner) : Bool := !s.flowKeys.isEmpty

/-- The column of the innermost block collection. -/
def indent (s : Scanner) : Int := (s.indents.head?.map Int.ofNat).getD (-1)

/-- Appends a token. -/
def emit (s : Scanner) (t : Token) : Scanner := { s with tokens := s.tokens.push t }

/-- Inserts a token behind a number of tokens. -/
def insert (s : Scanner) (position : Nat) (t : Token) : Scanner :=
  { s with tokens := (s.tokens.toList.insertIdx position t).toArray }

/-- Appends a token that takes one character. -/
def emitSign (s : Scanner) (t : Token) : Scanner := { s.emit t with cursor := s.cursor.next }

/-- The possible key at the current level. -/
def possibleKey (s : Scanner) : Option PossibleKey :=
  match s.flowKeys with
  | [] => s.blockKey
  | k :: _ => k

/-- Sets the possible key at the current level. -/
def setKey (s : Scanner) (k : Option PossibleKey) : Scanner :=
  match s.flowKeys with
  | [] => { s with blockKey := k }
  | _ :: ks => { s with flowKeys := k :: ks }

/-- Gives up the possible key at the current level; one that has to be a key may not be given
up. -/
def dropKey? (s : Scanner) : Option Scanner :=
  match s.possibleKey with
  | some k => if k.required then none else some (s.setKey none)
  | none => some s

/-- Notes that a simple key may start here. -/
def noteKey? (s : Scanner) : Option Scanner :=
  if s.keyAllowed then
    s.dropKey?.map fun s => s.setKey (some ⟨s.tokens.size, !s.inFlow && s.indent == s.cursor.column,
      s.cursor.index, s.cursor.line, s.cursor.column⟩)
  else some s

/-- Whether a possible key lies too far back: a simple key is on one line, and has at most 1024
characters. -/
def stale (c : Cursor) (k : PossibleKey) : Bool := k.line != c.line || k.index + 1024 < c.index

/-- Gives up the possible keys that lie too far back. -/
def dropStale? (s : Scanner) : Option Scanner :=
  let old (k : Option PossibleKey) : Bool := (k.map (stale s.cursor)).getD false
  if old s.blockKey && (s.blockKey.map (·.required)).getD false then none
  else some { s with
    blockKey := if old s.blockKey then none else s.blockKey
    flowKeys := s.flowKeys.map fun k => if old k then none else k }

/-- Closes the block collections that are indented further than a column. -/
def closeTo (s : Scanner) (column : Int) : Scanner :=
  if s.inFlow then s
  else
    let closed := s.indents.takeWhile fun (i : Nat) => decide (column < i)
    { s with
      indents := s.indents.drop closed.length
      tokens := s.tokens ++ closed.toArray.map fun _ => Token.blockEnd }

/-- Whether a block collection that starts at a column is a new one. -/
def opens (s : Scanner) (column : Nat) : Bool := decide (s.indent < column)

/-- Opens a block collection. -/
def open' (s : Scanner) (column : Nat) : Scanner := { s with indents := column :: s.indents }

/-- Skips blanks, comments and line ends. Outside of brackets a simple key may start on a new
line. -/
def skipBlanks (s : Scanner) : Nat → Scanner
  | 0 => s
  | fuel + 1 =>
    let c := s.cursor.skip (· == ' ')
    let c := if c.peek == '#' then c.skip (!isEnd ·) else c
    if isBreak c.peek then
      skipBlanks { s with cursor := c.lineBreak.2, keyAllowed := s.keyAllowed || !s.inFlow } fuel
    else { s with cursor := c }

/-- The end of the text. -/
def finish? (s : Scanner) : Option Scanner := (s.closeTo (-1)).dropKey?

/-- A directive. -/
def scanDirective? (s : Scanner) : Option Scanner := do
  let s ← (s.closeTo (-1)).dropKey?
  let (d, c) ← directive? s.cursor
  some { s.emit (.directive d) with cursor := c, keyAllowed := false }

/-- A sign that separates documents. -/
def scanSeparator? (s : Scanner) (t : Token) : Option Scanner := do
  let s ← (s.closeTo (-1)).dropKey?
  some { s.emit t with cursor := s.cursor.advance 3, keyAllowed := false }

/-- An opening bracket. -/
def scanOpening? (s : Scanner) (t : Token) : Option Scanner := do
  let s ← s.noteKey?
  some { s.emitSign t with keyAllowed := true, flowKeys := none :: s.flowKeys }

/-- A closing bracket. -/
def scanClosing? (s : Scanner) (t : Token) : Option Scanner :=
  match s.flowKeys with
  | [] => none
  | _ :: ks => some { s.emitSign t with keyAllowed := false, flowKeys := ks }

/-- A comma between items. -/
def scanComma? (s : Scanner) : Option Scanner := do
  let s ← s.dropKey?
  some { s.emitSign .flowEntry with keyAllowed := true }

/-- The dash in front of an item. -/
def scanDash? (s : Scanner) : Option Scanner := do
  if !s.inFlow && !s.keyAllowed then none
  let s := if !s.inFlow && s.opens s.cursor.column then
    (s.open' s.cursor.column).emit .blockSequence else s
  let s ← s.dropKey?
  some { s.emitSign .blockEntry with keyAllowed := true }

/-- The question mark in front of a key. -/
def scanQuestion? (s : Scanner) : Option Scanner := do
  if !s.inFlow && !s.keyAllowed then none
  let s := if !s.inFlow && s.opens s.cursor.column then
    (s.open' s.cursor.column).emit .blockMapping else s
  let s ← s.dropKey?
  some { s.emitSign .key with keyAllowed := !s.inFlow }

/-- The colon in front of a value. -/
def scanColon? (s : Scanner) : Option Scanner :=
  match s.possibleKey with
  | some k =>
    let s := (s.setKey none).insert k.position .key
    let s := if !s.inFlow && s.opens k.column then
      (s.open' k.column).insert k.position .blockMapping else s
    some { s.emitSign .value with keyAllowed := false }
  | none => do
    if !s.inFlow && !s.keyAllowed then none
    let s := if !s.inFlow && s.opens s.cursor.column then
      (s.open' s.cursor.column).emit .blockMapping else s
    some { s.emitSign .value with keyAllowed := !s.inFlow }

/-- A token that may start a simple key. -/
def scanContent? (s : Scanner) (read : Cursor → Option (Token × Cursor)) : Option Scanner := do
  let s ← s.noteKey?
  let (t, c) ← read s.cursor
  some { s.emit t with cursor := c, keyAllowed := false }

/-- A scalar. -/
def emitScalar (s : Scanner) (x : Scalar) (isPlain : Bool) : Scanner :=
  { s.emit (.scalar (String.ofList x.text) isPlain) with
    cursor := x.cursor, keyAllowed := x.keyAllowed }

/-- A scalar in quotes. -/
def scanQuoted? (s : Scanner) (double : Bool) : Option Scanner := do
  let s ← s.noteKey?
  let x ← quoted double s.cursor
  some (s.emitScalar x false)

/-- A scalar that is a block of lines. -/
def scanBlock? (s : Scanner) (folded : Bool) : Option Scanner := do
  let s ← s.dropKey?
  let x ← block folded s.indent s.cursor
  some (s.emitScalar x false)

/-- A plain scalar. -/
def scanPlain? (s : Scanner) : Option Scanner := do
  let s ← s.noteKey?
  some (s.emitScalar (plain s.inFlow (s.indent + 1) s.cursor) true)

/-- Whether a plain scalar may start here. -/
def plainStarts (s : Scanner) : Bool :=
  let x := s.cursor.peek
  !(isBlankOrEnd x || "-?:,[]\x7b\x7d#&*!|>'\"%@`".toList.contains x)
    || (!isBlankOrEnd (s.cursor.peekAt 1) && (x == '-' || (!s.inFlow && (x == '?' || x == ':'))))

/-- Reads the token at a position that is neither blank nor the end of the text. -/
def scanToken? (s : Scanner) : Option Scanner :=
  let c := s.cursor
  let signEnds := isBlankOrEnd (c.peekAt 1)
  if c.column == 0 && c.peek == '%' then s.scanDirective?
  else if c.column == 0 && c.atSeparator then
    s.scanSeparator? (if c.peek == '-' then .documentStart else .documentEnd)
  else match c.peek with
    | '[' => s.scanOpening? .flowSequence
    | '\x7b' => s.scanOpening? .flowMapping
    | ']' => s.scanClosing? .flowSequenceEnd
    | '\x7d' => s.scanClosing? .flowMappingEnd
    | ',' => s.scanComma?
    | '*' => s.scanContent? fun c => (anchorName? c).map fun (n, c) => (.alias n, c)
    | '&' => s.scanContent? fun c => (anchorName? c).map fun (n, c) => (.anchor n, c)
    | '!' => s.scanContent? fun c => (tag? c).map fun (t, c) => (.tag t, c)
    | '\'' => s.scanQuoted? false
    | '"' => s.scanQuoted? true
    | x =>
      if x == '-' && signEnds then s.scanDash?
      else if x == '?' && (s.inFlow || signEnds) then s.scanQuestion?
      else if x == ':' && (s.inFlow || signEnds) then s.scanColon?
      else if x == '|' && !s.inFlow then s.scanBlock? false
      else if x == '>' && !s.inFlow then s.scanBlock? true
      else if s.plainStarts then s.scanPlain?
      else none

/-- Reads the tokens up to the end of the text. Each takes at least one character. -/
def scanAll? (s : Scanner) : Nat → Option Scanner
  | 0 => none
  | fuel + 1 => do
    let s ← (s.skipBlanks (s.cursor.rest.length + 1)).dropStale?
    let s := s.closeTo s.cursor.column
    if s.cursor.rest.isEmpty then s.finish?
    else scanAll? (← s.scanToken?) fuel

end Scanner

/-- The tokens of a document. A byte order mark in front is skipped. -/
def Token.ofText? (text : String) : Option (List Token) :=
  if text.toList.all isAllowed then
    let s := Scanner.start text
    let s := if s.cursor.peek == '\uFEFF' then { s with cursor := s.cursor.next } else s
    (s.scanAll? (text.length + 1)).map (·.tokens.toList)
  else none

end Yaml
end Horn
