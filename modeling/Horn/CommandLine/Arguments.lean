import Horn.Files
import Horn.Text.Integer

/-!
# Arguments

What the arguments of the program ask for: a command, the file that it is about, and options.
`Request.ofArguments` reads them.

Options may stand before and after the file. Their names may be shortened as long as one option
remains that they can stand for, and a value follows as the next argument or behind an equals sign.
The arguments behind a double dash are no options.

Arguments are read from left to right until help is asked for or until an argument cannot be read.
What nothing accepts is refused in the end, so that help is given in spite of it.
-/

namespace Horn
namespace CommandLine

/-- What the program does. -/
inductive Command where
  /-- Split a problem, learn a model of it, and show the model. -/
  | solve
  /-- Show a problem and the order of its splits. -/
  | info
  deriving DecidableEq, Inhabited

/-- An option of a command. -/
inductive Flag where
  | help | verbose | config | noSplit | noSplitSort | checkOnly | splitStep | timeout
  deriving DecidableEq, Inhabited

namespace Flag

/-- The name of an option. -/
def name : Flag → String
  | help => "--help"
  | verbose => "--verbose"
  | config => "--config"
  | noSplit => "--no-split"
  | noSplitSort => "--no-split-sort"
  | checkOnly => "--check-only"
  | splitStep => "--split-step"
  | timeout => "--timeout"

/-- Whether an option has a value. -/
def hasValue : Flag → Bool
  | config | timeout => true
  | _ => false

end Flag

namespace Command

/-- The command with a name. -/
def ofName? : String → Option Command
  | "solve" => some solve
  | "info" => some info
  | _ => none

/-- The options of a command. -/
def flags : Command → List Flag
  | solve => [.help, .verbose, .config, .noSplit, .noSplitSort, .checkOnly, .splitStep, .timeout]
  | info => [.help, .noSplitSort]

end Command

/-! ### Single arguments -/

/-- What a single argument is. -/
inductive Argument where
  /-- The name of a command or a file, or the value of an option. -/
  | plain (text : String)
  /-- An option, with the value that stands behind an equals sign. -/
  | flag (flag : Flag) (value : Option String)
  /-- Neither. -/
  | stray
  /-- An option that is shortened too much. -/
  | ambiguous

namespace Argument

/-- Whether a text is one or more digits. -/
def isDigits (cs : List Char) : Bool := !cs.isEmpty && cs.all Char.isDigit

/-- Whether a text is a negative number, with or without a point. -/
def isNegative (text : String) : Bool :=
  match text.toList with
  | '-' :: cs =>
    let whole := cs.takeWhile (· != '.')
    isDigits cs || (whole.all Char.isDigit && isDigits ((cs.dropWhile (· != '.')).drop 1))
  | _ => false

/-- Whether a text asks for help in its short form, in which the letter may be repeated. -/
def isShortHelp (text : String) : Bool :=
  match text.toList with
  | '-' :: 'h' :: cs => cs.all (· == 'h')
  | _ => false

/-- The text before the first equals sign, and the text behind it if there is one. -/
def splitValue (text : String) : String × Option String :=
  match text.splitOn "=" with
  | name :: value :: rest => (name, some ("=".intercalate (value :: rest)))
  | _ => (text, none)

/-- The options that a text can stand for. A full name stands for one option only. -/
def candidates (flags : List Flag) (name : String) : List Flag :=
  match flags.filter (·.name == name) with
  | [] => if name.startsWith "--" then flags.filter (·.name.startsWith name) else []
  | exact => exact

/-- What an argument is where some options are known. -/
def ofText (flags : List Flag) (text : String) : Argument :=
  if !text.startsWith "-" || text == "-" then .plain text
  else if isShortHelp text then .flag .help none
  else
    let (name, value) := splitValue text
    match candidates flags name with
    | [f] => .flag f value
    | _ :: _ => .ambiguous
    | [] => if isNegative text || text.contains ' ' then .plain text else .stray

end Argument

/-! ### Requests -/

/-- What the arguments of the program ask for. -/
structure Request where
  command : Command
  target : String
  flags : List Flag
  config : Option String
  /-- The time limit of the learner, in milliseconds. The solvers of this library have none. -/
  timeout : Option Int
  deriving Inhabited

/-- Why there is nothing to run. -/
inductive Refusal where
  | help
  | misuse
  deriving DecidableEq, Inhabited

/-- What has been read so far. -/
structure Reading where
  target : Option String
  flags : List Flag
  config : Option String
  timeout : Option Int
  /-- Whether something has been read that nothing accepts. -/
  hasStray : Bool

namespace Reading

/-- Nothing has been read. -/
def start (hasStray : Bool) : Reading := ⟨none, [], none, none, hasStray⟩

/-- Reads an argument that is no option. The first one is the target. -/
def plain (r : Reading) (text : String) : Reading :=
  if r.target.isNone then { r with target := some text } else { r with hasStray := true }

/-- Reads an option with a value. The last value of an option counts. -/
def withValue (r : Reading) (f : Flag) (value : String) : Except Refusal Reading :=
  match f with
  | .config => .ok { r with config := some value }
  | .timeout =>
    match Text.shortInteger? value with
    | some n => .ok { r with timeout := some n }
    | none => .error .misuse
  | _ => .error .misuse

/-- Reads an option without a value. -/
def alone (r : Reading) : Flag → Except Refusal Reading
  | .help => .error .help
  | f => .ok { r with flags := r.flags ++ [f] }

/-- Reads the arguments of a command. -/
def readAll (flags : List Flag) : List String → Reading → Except Refusal Reading
  | [], r => .ok r
  | "--" :: texts, r => .ok (texts.foldl plain r)
  | text :: texts, r =>
    match Argument.ofText flags text with
    | .plain text => readAll flags texts (r.plain text)
    | .stray => readAll flags texts { r with hasStray := true }
    | .ambiguous => .error .misuse
    | .flag f (some value) =>
      if f.hasValue then (r.withValue f value).bind (readAll flags texts) else .error .misuse
    | .flag f none =>
      if f.hasValue then
        match texts with
        | [] => .error .misuse
        | value :: texts =>
          match Argument.ofText flags value with
          | .plain value => (r.withValue f value).bind (readAll flags texts)
          | _ => .error .misuse
      else (r.alone f).bind (readAll flags texts)

end Reading

namespace Request

/-- Reads a command and its arguments. -/
def ofCommand (hasStray : Bool) (name : String) (texts : List String) : Except Refusal Request := do
  match Command.ofName? name with
  | none => throw .misuse
  | some command =>
    let r ← Reading.readAll command.flags texts (.start hasStray)
    match r.target with
    | some target =>
      if r.hasStray then throw .misuse
      pure ⟨command, Path.normal target, r.flags, r.config.map Path.normal, r.timeout⟩
    | none => throw .misuse

/-- Reads arguments, of which those before the command are no options but for help. -/
def ofArgumentsFrom (hasStray : Bool) : List String → Except Refusal Request
  | [] => .error .misuse
  | ["--"] => .error .misuse
  | "--" :: name :: texts => ofCommand hasStray name texts
  | text :: texts =>
    match Argument.ofText [.help] text with
    | .plain name => ofCommand hasStray name texts
    | .stray => ofArgumentsFrom true texts
    | .flag _ none => .error .help
    | _ => .error .misuse

/-- What arguments ask for. -/
def ofArguments (texts : List String) : Except Refusal Request := ofArgumentsFrom false texts

/-- Whether an option is given. -/
def has (r : Request) (f : Flag) : Bool := r.flags.contains f

end Request

end CommandLine
end Horn
