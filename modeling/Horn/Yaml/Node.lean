import Horn.Yaml.Implicit
import Horn.Yaml.Moment
import Horn.Yaml.Token

/-!
# Nodes

A document is a tree of nodes: scalars, sequences and mappings, each of them of a kind, which its
tag names or its spelling shows. `Node.ofText?` reads the one document of a text; an empty text has
none.

An alias stands for the node with its anchor, which has to be complete where the alias occurs, and
no two nodes may have the same anchor.
-/

namespace Horn
namespace Yaml

/-- A node of a document. -/
inductive Node where
  | scalar (kind : Kind) (text : String)
  | sequence (kind : Kind) (items : List Node)
  | mapping (kind : Kind) (entries : List (Node × Node))
  deriving Inhabited

namespace Kind

/-- The kind of a plain scalar without a tag. -/
def ofPlain (text : String) : Kind :=
  if Implicit.truths.any (·.1 == text) then .bool
  else if Implicit.isFloat text.toList then .float
  else if Implicit.isInt text.toList then .int
  else if text == "<<" then .merge
  else if Implicit.nulls.contains text then .null
  else if (Moment.ofText? false text).isSome then .timestamp
  else if text == "=" then .value
  else .text

/-- The kinds that tags of the standard repository name. -/
def table : List (String × Kind) := [
  ("null", .null), ("bool", .bool), ("int", .int), ("float", .float),
  ("timestamp", .timestamp), ("str", .text), ("merge", .merge), ("value", .value),
  ("seq", .sequence), ("map", .mapping)]

/-- The prefix of the tags of the standard repository. -/
def repository : String := "tag:yaml.org,2002:"

/-- The kind that a tag names. -/
def ofTag (tag : String) : Kind :=
  ((table.find? fun (name, _) => repository ++ name == tag).map (·.2)).getD .unknown

end Kind

namespace Node

/-- What a reader of nodes knows: the tokens to come, the nodes with anchors, and the prefixes that
the handles of tags stand for. -/
structure State where
  tokens : List Token
  anchors : List (String × Node)
  handles : List (String × String)

/-- A reader of a part of a document. -/
abbrev Reader := StateT State Option

/-- The next token; `none` at the end. -/
def peek : Reader (Option Token) := do pure (← get).tokens.head?

/-- Goes to the token behind the next one. -/
def drop : Reader Unit := modify fun s => { s with tokens := s.tokens.drop 1 }

/-- Takes the next token if it is the given one, and says whether it was. -/
def takes (t : Token) : Reader Bool := do
  if (← peek) == some t then drop; pure true else pure false

/-- Takes the next token, which has to be the given one. -/
def expect (t : Token) : Reader Unit := do
  if ← takes t then pure () else failure

/-- Whether the next token is one of some tokens. -/
def atAny (ts : List Token) : Reader Bool := do
  match ← peek with
  | some t => pure (ts.contains t)
  | none => pure false

/-- The node of an empty place. -/
def empty : Node := .scalar .null ""

/-- The full tag of a written one. -/
def fullTag (t : RawTag) : Reader String := do
  match t.handle with
  | none => pure t.suffix
  | some handle =>
    match (← get).handles.lookup handle with
    | some uri => pure (uri ++ t.suffix)
    | none => failure

/-- The anchor and the tag in front of a node, in either order. -/
def properties : Reader (Option String × Option String) := do
  match ← peek with
  | some (.anchor name) => do
    drop
    match ← peek with
    | some (.tag t) => do drop; pure (some name, some (← fullTag t))
    | _ => pure (some name, none)
  | some (.tag t) => do
    drop
    match ← peek with
    | some (.anchor name) => do drop; pure (some name, some (← fullTag t))
    | _ => pure (none, some (← fullTag t))
  | _ => pure (none, none)

/-- The kind of a collection with a tag or without. -/
def collectionKind (own : Kind) : Option String → Kind
  | none => own
  | some "!" => own
  | some tag => Kind.ofTag tag

/-- The kind of a scalar with a tag or without. A single exclamation mark asks for the kind that
the spelling shows. -/
def scalarKind (plain : Bool) (text : String) : Option String → Kind
  | none => if plain then Kind.ofPlain text else .text
  | some "!" => Kind.ofPlain text
  | some tag => Kind.ofTag tag

/-- Remembers a node with an anchor. -/
def remember (anchor : Option String) (n : Node) : Reader Node := do
  match anchor with
  | none => pure n
  | some name =>
    let s ← get
    if s.anchors.any (·.1 == name) then failure
    set { s with anchors := (name, n) :: s.anchors }
    pure n

mutual

/-- Reads a node. `block` says whether it may be a block collection, and `indentless` whether it
may be a sequence that is not indented. `fuel` bounds the depth of the calls. -/
def node (block indentless : Bool) : Nat → Reader Node
  | 0 => failure
  | fuel + 1 => do
    if let some (.alias name) ← peek then
      drop
      match (← get).anchors.lookup name with
      | some n => return n
      | none => failure
    let (anchor, tag) ← properties
    let sequence (items : List Node) : Node := .sequence (collectionKind .sequence tag) items
    let mapping (entries : List (Node × Node)) : Node :=
      .mapping (collectionKind .mapping tag) entries
    let n ← match ← peek with
      | some .blockEntry =>
        if indentless then sequence <$> indentlessItems fuel
        else if anchor.isSome || tag.isSome then
          pure (.scalar (scalarKind true "" tag) "")
        else failure
      | some (.scalar text plain) => do
        drop
        pure (.scalar (scalarKind plain text tag) text)
      | some .flowSequence => do drop; sequence <$> flowItems true fuel
      | some .flowMapping => do drop; mapping <$> flowEntries true fuel
      | t =>
        if block && t == some .blockSequence then do drop; sequence <$> blockItems fuel
        else if block && t == some .blockMapping then do drop; mapping <$> blockEntries fuel
        else if anchor.isSome || tag.isSome then
          pure (.scalar (scalarKind true "" tag) "")
        else failure
    remember anchor n

/-- Reads the node in a place that is empty if one of some tokens comes next. -/
def place (stops : List Token) (block indentless : Bool) : Nat → Reader Node
  | 0 => failure
  | fuel + 1 => do if ← atAny stops then pure empty else node block indentless fuel

/-- Reads the items of a block sequence. -/
def blockItems : Nat → Reader (List Node)
  | 0 => failure
  | fuel + 1 => do
    if ← takes .blockEntry then
      let n ← place [.blockEntry, .blockEnd] true false fuel
      pure (n :: (← blockItems fuel))
    else expect .blockEnd; pure []

/-- Reads the items of a sequence that is not indented. -/
def indentlessItems : Nat → Reader (List Node)
  | 0 => failure
  | fuel + 1 => do
    if ← takes .blockEntry then
      let n ← place [.blockEntry, .key, .value, .blockEnd] true false fuel
      pure (n :: (← indentlessItems fuel))
    else pure []

/-- Reads the entries of a block mapping. -/
def blockEntries : Nat → Reader (List (Node × Node))
  | 0 => failure
  | fuel + 1 => do
    let stops : List Token := [.key, .value, .blockEnd]
    if ← takes .key then
      let k ← place stops true true fuel
      let v ← if ← takes .value then place stops true true fuel else pure empty
      pure ((k, v) :: (← blockEntries fuel))
    else expect .blockEnd; pure []

/-- Reads the items of a sequence in brackets. An item may be a mapping with one entry. -/
def flowItems (first : Bool) : Nat → Reader (List Node)
  | 0 => failure
  | fuel + 1 => do
    if ← takes .flowSequenceEnd then return []
    if !first then expect .flowEntry
    if ← takes .flowSequenceEnd then return []
    let stops : List Token := [.flowEntry, .flowSequenceEnd]
    let n ← if ← takes .key then do
        let k ← place (.value :: stops) false false fuel
        let v ← if ← takes .value then place stops false false fuel else pure empty
        pure (.mapping .mapping [(k, v)])
      else node false false fuel
    pure (n :: (← flowItems false fuel))

/-- Reads the entries of a mapping in braces. -/
def flowEntries (first : Bool) : Nat → Reader (List (Node × Node))
  | 0 => failure
  | fuel + 1 => do
    if ← takes .flowMappingEnd then return []
    if !first then expect .flowEntry
    if ← takes .flowMappingEnd then return []
    let stops : List Token := [.flowEntry, .flowMappingEnd]
    let (k, v) ← if ← takes .key then do
        let k ← place (.value :: stops) false false fuel
        let v ← if ← takes .value then place stops false false fuel else pure empty
        pure (k, v)
      else do
        let k ← node false false fuel
        pure (k, empty)
    pure ((k, v) :: (← flowEntries false fuel))

end

/-- The handles that are known without a directive. -/
def standardHandles : List (String × String) := [("!", "!"), ("!!", Kind.repository)]

/-- Reads the directives in front of a document. At most one may give the version, and none may
give a handle a second meaning. -/
def directives (versioned : Bool) : List Token → Reader Unit
  | .directive d :: rest => do
    match d with
    | .version major => do
      if versioned || major != 1 then failure
      directives true rest
    | .tag handle uri => do
      let s ← get
      if s.handles.any (·.1 == handle) then failure
      set { s with handles := (handle, uri) :: s.handles }
      directives versioned rest
    | .other => directives versioned rest
  | rest => modify fun s => { s with tokens := rest }

/-- The bound for the depth of the calls: each token takes part in three of them at most. -/
def fuel (ts : List Token) : Nat := 3 * ts.length + 3

/-- Reads the document behind its directives. -/
def document : Reader Node := do
  let ts := (← get).tokens
  match ts with
  | .directive _ :: _ | .documentStart :: _ => do
    directives false ts
    expect .documentStart
    modify fun s => { s with handles := s.handles ++ standardHandles }
    match ← peek with
    | none | some (.directive _) | some .documentStart | some .documentEnd => pure empty
    | _ => node true false (fuel ts)
  | _ => do
    modify fun s => { s with handles := standardHandles }
    node true false (fuel ts)

/-- Takes all signs that end a document. -/
def skipEnds : List Token → List Token
  | .documentEnd :: rest => skipEnds rest
  | ts => ts

/-- The one document of a text; `some none` for a text without one. -/
def ofText? (text : String) : Option (Option Node) := do
  let ts ← Token.ofText? text
  if ts.isEmpty then some none
  else do
    let (n, s) ← document.run ⟨ts, [], []⟩
    if (skipEnds s.tokens).isEmpty then some (some n) else none

end Node

end Yaml
end Horn
