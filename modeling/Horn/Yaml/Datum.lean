import Horn.Decimal.Shortest
import Horn.Files
import Horn.Text.Integer
import Horn.Yaml.Node

/-!
# Data of documents

What a document means: the null value, truth values, numbers, moments, texts, lists and maps. The
kind of a node decides how its text is read; `Datum.ofNode` reads a whole tree, and refuses kinds
that nothing is known about.

A merge key `<<` in a mapping stands for the entries of other mappings, which come first, so that
the entries of the mapping itself replace them. A later entry for a key replaces an earlier one and
keeps its place.

`Datum.ofBytes` is one reader of documents. What uses documents takes any `Reader`; others know more
kinds of values (`Foreign`). A map that contains itself is unfolded as far as anybody looks into it.
-/

namespace Horn
namespace Yaml

open Decimal (Double)

/-- A value of another kind, such as bytes, a set, a pair, or a value that contains itself. This is
all that is asked about it. -/
structure Foreign where
  /-- Whether it counts as true. -/
  isTrue : Bool
  /-- The integer that it denotes: `none` if values of its kind are no numbers, `some none` if it is
  of a kind that may denote a number, but does not. -/
  integer : Option (Option Int)
  /-- Its text. -/
  text : String
  /-- Whether all integers in it can be written. -/
  isWritable : Bool
  deriving DecidableEq

/-- The value of a node. -/
inductive Datum where
  | null
  | bool (b : Bool)
  | int (n : Int)
  | float (x : Double)
  | moment (m : Moment)
  | text (s : String)
  | foreign (v : Foreign)
  | list (items : List Datum)
  | map (entries : List (Datum × Datum))
  deriving Inhabited

namespace Datum

/-! ### Comparison -/

/-- Whether an integer equals a floating-point number. -/
def isWhole (n : Int) (x : Double) : Bool := x.toRat? == some (n : Rat)

/-- Whether floating-point numbers are equal: the two zeros are, and `nan` differs from
everything. -/
def sameFloat (x y : Double) : Bool :=
  match x, y with
  | .nan, _ => false
  | _, .nan => false
  | .infinite s, .infinite t => s == t
  | x, y => x.toRat?.isSome && x.toRat? == y.toRat?

/-- The integer that a truth value or an integer is. -/
def whole? : Datum → Option Int
  | .bool b => some (if b then 1 else 0)
  | .int n => some n
  | _ => none

/-- Whether values without parts are equal. Numbers are compared by their value. -/
def sameAtom (a b : Datum) : Bool :=
  match a, b with
  | .null, .null => true
  | .text s, .text t => s == t
  | .moment m, .moment n => m == n
  | .foreign v, .foreign w => v == w
  | .float x, .float y => sameFloat x y
  | .float x, b => (b.whole?.map (isWhole · x)).getD false
  | a, .float y => (a.whole?.map (isWhole · y)).getD false
  | a, b => a.whole?.isSome && a.whole? == b.whole?

mutual

/-- Whether values are equal. The entries of maps may be in any order. -/
def same : Datum → Datum → Bool
  | .list as, b =>
    match b with
    | .list bs => sameList as bs
    | _ => false
  | .map as, b =>
    match b with
    | .map bs => as.length == bs.length && sameEntries as bs
    | _ => false
  | a, b => sameAtom a b

/-- Whether lists of values are equal. -/
def sameList : List Datum → List Datum → Bool
  | [], bs => bs.isEmpty
  | a :: as, bs =>
    match bs with
    | [] => false
    | b :: bs => same a b && sameList as bs

/-- Whether each entry of a map has an equal one in another map. -/
def sameEntries : List (Datum × Datum) → List (Datum × Datum) → Bool
  | [], _ => true
  | (k, v) :: as, bs =>
    (match bs.find? fun e => sameAtom k e.1 with
      | some e => same v e.2
      | none => false)
    && sameEntries as bs

end

/-- Whether a value counts as true: it is neither null nor zero nor empty. -/
def isTrue : Datum → Bool
  | .null => false
  | .bool b => b
  | .int n => n != 0
  | .float x => !x.isZero
  | .moment _ => true
  | .text s => !s.isEmpty
  | .foreign v => v.isTrue
  | .list items => !items.isEmpty
  | .map entries => !entries.isEmpty

/-- The entry of a map for a text. -/
def field? (entries : List (Datum × Datum)) (name : String) : Option Datum :=
  (entries.find? fun e => sameAtom e.1 (.text name)).map (·.2)

/-- Sets the entry of a map for a key. -/
def insert (entries : List (Datum × Datum)) (k v : Datum) : List (Datum × Datum) :=
  if entries.any fun e => sameAtom e.1 k then
    entries.map fun e => if sameAtom e.1 k then (e.1, v) else e
  else entries ++ [(k, v)]

/-! ### Display -/

/-- A moment inside of a list or a map. -/
def momentQuoted (m : Moment) : String :=
  let list (ns : List Nat) : String := ", ".intercalate (ns.map toString)
  match m.time with
  | none => "datetime.date(" ++ list [m.year, m.month, m.day] ++ ")"
  | some t =>
    let seconds := if t.microsecond = 0 then (if t.second = 0 then [] else [t.second])
      else [t.second, t.microsecond]
    "datetime.datetime(" ++ list ([m.year, m.month, m.day, t.hour, t.minute] ++ seconds)
      ++ (match t.zone with
        | none => ""
        | some 0 => ", tzinfo=datetime.timezone.utc"
        | some z =>
          let days := if z < 0 then "days=-1, " else ""
          ", tzinfo=datetime.timezone(datetime.timedelta(" ++ days ++ "seconds="
            ++ toString ((60 * z) % 86400) ++ "))")
      ++ ")"

mutual

/-- The form of a value inside of a list or a map, where texts are quoted. -/
def quoted : Datum → String
  | .null => "None"
  | .bool b => if b then "True" else "False"
  | .int n => toString n
  | .float x => x.text
  | .moment m => momentQuoted m
  | .text s => Text.quoted s
  | .foreign v => v.text
  | .list items => "[" ++ ", ".intercalate (quotedList items) ++ "]"
  | .map entries => "\x7b" ++ ", ".intercalate (quotedEntries entries) ++ "\x7d"

/-- The forms of the items of a list. -/
def quotedList : List Datum → List String
  | [] => []
  | v :: vs => quoted v :: quotedList vs

/-- The forms of the entries of a map. -/
def quotedEntries : List (Datum × Datum) → List String
  | [] => []
  | (k, v) :: es => (quoted k ++ ": " ++ quoted v) :: quotedEntries es

end

/-- The text of a value: a text stands for itself. -/
def toText : Datum → String
  | .text s => s
  | .moment m => m.text
  | v => v.quoted

mutual

/-- Whether a value can be written: its integers do not have too many digits. -/
def isWritable : Datum → Bool
  | .int n => Text.isShort n
  | .foreign v => v.isWritable
  | .list items => areWritable items
  | .map entries => entriesWritable entries
  | _ => true

/-- Whether some values can be written. -/
def areWritable : List Datum → Bool
  | [] => true
  | v :: vs => isWritable v && areWritable vs

/-- Whether the entries of a map can be written. -/
def entriesWritable : List (Datum × Datum) → Bool
  | [] => true
  | (k, v) :: es => isWritable k && isWritable v && entriesWritable es

end

/-- The text of a value that can be written. -/
def written (v : Datum) : Except Fault String :=
  if v.isWritable then .ok v.toText else .error .badNumber

/-! ### Reading scalars -/

/-- The number that digits in a base denote; there has to be one. -/
def digits? (base : Nat) (cs : List Char) : Except Fault Int :=
  match hexValue? cs with
  | some _ =>
    let ds := cs.filterMap hexDigit?
    if cs.isEmpty || ds.any (base ≤ ·) then .error .badNumber
    else .ok (ds.foldl (fun n d => base * n + d) 0 : Nat)
  | none => .error .badNumber

/-- A sum of parts in base sixty, the last part being the least. -/
def sixties (parts : List Int) : Int := parts.foldl (fun n d => 60 * n + d) 0

/-- The integer that a decimal text denotes. -/
def decimal? (cs : List Char) : Except Fault Int :=
  match Text.shortInteger? (String.ofList cs) with
  | some n => .ok n
  | none => .error .badNumber

/-- The integer that a scalar denotes. -/
def intOf (text : String) : Except Fault Int := do
  let cs := text.toList.filter (· != '_')
  if cs.isEmpty then throw Fault.outOfRange
  let sign : Int := if cs.head? == some '-' then -1 else 1
  let n ← match Implicit.unsigned cs with
    | ['0'] => pure 0
    | '0' :: 'b' :: ds => digits? 2 ds
    | '0' :: 'x' :: ds => digits? 16 ds
    | '0' :: ds => digits? 8 ('0' :: ds)
    | [] => throw Fault.outOfRange
    | ds => sixties <$> (Implicit.colonParts ds).mapM decimal?
  pure (sign * n)

/-- The number that a text with a point and an exponent denotes. -/
def pointed? (cs : List Char) : Except Fault Double :=
  let mantissa := cs.takeWhile fun c => c != 'e' && c != 'E'
  let exponent := (cs.dropWhile fun c => c != 'e' && c != 'E').drop 1
  let whole := mantissa.takeWhile (· != '.')
  let fraction := (mantissa.dropWhile (· != '.')).drop 1
  let ds := whole ++ fraction
  if ds.isEmpty || !ds.all Char.isDigit then .error .badNumber
  else do
    -- An exponent may have any number of digits.
    let e ← if mantissa.length == cs.length then pure 0
      else if (Implicit.unsigned exponent).all Char.isDigit then
        (match Text.integer? (String.ofList exponent) with
        | some e => pure e
        | none => throw Fault.badNumber)
      else throw Fault.badNumber
    pure (Double.ofDigits false (ds.map fun c => c.toNat - '0'.toNat) (e - fraction.length))

/-- The floating-point number that a scalar denotes. In base sixty the parts are added up from the
least one. -/
def floatOf (text : String) : Except Fault Double := do
  let cs := (text.toList.filter (· != '_')).map Char.toLower
  if cs.isEmpty then throw Fault.outOfRange
  let signed (x : Double) : Double := if cs.head? == some '-' then x.negate else x
  let ds := Implicit.unsigned cs
  let name := String.ofList ds
  if name == ".inf" || name == "inf" || name == "infinity" then pure (signed (.infinite false))
  else if name == ".nan" || name == "nan" then pure .nan
  else
    match Implicit.colonParts ds with
    | [_] => signed <$> pointed? ds
    | parts =>
      let xs ← parts.mapM pointed?
      let (sum, _) := xs.reverse.foldl
        (fun (sum, base) x => (sum.add (x.scale base), base * 60)) (Double.nearest 0, 1)
      pure (signed sum)

/-- The moment that a scalar denotes. -/
def momentOf (text : String) : Except Fault Moment :=
  match Moment.ofText? true text with
  | none => .error .notMapping
  | some m => if m.isValid then .ok m else .error .badNumber

/-- The value of a scalar of a kind. -/
def ofScalar (text : String) : Kind → Except Fault Datum
  | .null => .ok .null
  | .bool =>
    match Implicit.truths.lookup (text.map Char.toLower) with
    | some b => .ok (.bool b)
    | none => .error .noEntry
  | .int => .int <$> intOf text
  | .float => .float <$> floatOf text
  | .timestamp => .moment <$> momentOf text
  | .text => .ok (.text text)
  | _ => .error .badDocument

/-! ### Reading trees -/

/-- Whether a value is a list or a map. These are no keys. -/
def isCollection : Datum → Bool
  | .list _ => true
  | .map _ => true
  | _ => false

/-- Whether a node is a scalar of a kind. -/
def isScalarOf (kind : Kind) : Node → Bool
  | .scalar k _ => k == kind
  | _ => false

mutual

/-- The value of a node. -/
def ofNode : Node → Except Fault Datum
  | .scalar kind s => ofScalar s kind
  | .sequence kind items =>
    if kind == .sequence then .list <$> ofItems items else .error .badDocument
  | .mapping kind entries =>
    if kind == .mapping then do
      let (merged, own) ← ofEntries entries
      pure (.map ((merged ++ own).foldl (fun es (k, v) => insert es k v) []))
    else .error .badDocument

/-- The values of some nodes. -/
def ofItems : List Node → Except Fault (List Datum)
  | [] => .ok []
  | n :: ns => do
    let v ← ofNode n
    let vs ← ofItems ns
    pure (v :: vs)

/-- The entries of a mapping: those that it takes over from other mappings, and its own. -/
def ofEntries : List (Node × Node) → Except Fault (List (Datum × Datum) × List (Datum × Datum))
  | [] => .ok ([], [])
  | (k, v) :: rest =>
    if isScalarOf .merge k then do
      let taken ← merge v
      let (merged, own) ← ofEntries rest
      pure (taken ++ merged, own)
    else do
      let key ← match k with
        | .scalar .value s => pure (.text s)
        | k => ofNode k
      if key.isCollection then throw Fault.badDocument
      let v ← ofNode v
      let (merged, own) ← ofEntries rest
      pure (merged, (key, v) :: own)

/-- The entries that a merge key takes over from a mapping or from a sequence of mappings. Those of
an earlier mapping in the sequence win. -/
def merge : Node → Except Fault (List (Datum × Datum))
  | .mapping _ entries => do
    let (merged, own) ← ofEntries entries
    pure (merged ++ own)
  | .sequence _ items => mergeItems items
  | .scalar _ _ => .error .badDocument

/-- The entries of the mappings of a sequence, those of the last one first. -/
def mergeItems : List Node → Except Fault (List (Datum × Datum))
  | [] => .ok []
  | .mapping _ entries :: rest => do
    let (merged, own) ← ofEntries entries
    let later ← mergeItems rest
    pure (later ++ merged ++ own)
  | _ :: _ => .error .badDocument

end

/-- The value of the document in a text; an empty text has the null value. -/
def ofText (text : String) : Except Fault Datum :=
  match Node.ofText? text with
  | none => .error .badDocument
  | some none => .ok .null
  | some (some n) => ofNode n

/-- The value of the document that is in bytes. -/
def ofBytes (bytes : ByteArray) : Except Fault Datum := do
  ofText (← Text.ofBytes bytes)

end Datum

/-- A reader of documents: it gives the value of the document in some bytes. Its fault for bytes
that are no document is `Fault.badDocument`; any other fault is one of its own. -/
abbrev Reader := ByteArray → Except Fault Datum

end Yaml
end Horn
