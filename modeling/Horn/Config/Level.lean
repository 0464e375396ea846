import Horn.Fault

/-!
# Log levels by name

A log level is a name with a number; records below the number are not shown. `Level.number` finds
the number of a name, in which upper and lower case are the same.
-/

namespace Horn
namespace Level

/-- The names of the levels. -/
def table : List (String × Nat) := [
  ("CRITICAL", 50), ("FATAL", 50), ("ERROR", 40), ("WARNING", 30), ("WARN", 30), ("INFO", 20),
  ("DEBUG", 10), ("NOTSET", 0)]

/-- The upper case of a character as far as the names of levels go: the dotless i and the long s
are lower-case letters of I and S too. -/
def upper (c : Char) : Char :=
  if c == 'ı' then 'I' else if c == 'ſ' then 'S' else c.toUpper

/-- The number of the level with a name. -/
def number (name : String) : Except Fault Nat :=
  match table.lookup (name.map upper) with
  | some n => .ok n
  | none => .error (.unknownLevel name)

end Level
end Horn
