import Horn.Text.Printable

/-!
# Quoted texts

The quoted form of a text, as it appears inside messages: single quotes, or double quotes when
the text has a single quote and no double quote. The quote in use, the backslash and characters
that are not printable are escaped.
-/

namespace Horn
namespace Text

/-- The last `n` hexadecimal digits of a number. -/
def hex (n v : Nat) : String :=
  let digits := (Nat.toDigits 16 v)
  String.ofList (List.replicate (n - digits.length) '0' ++ digits)

/-- One character inside the quotes `q`. -/
def quoteChar (q c : Char) : String :=
  if c == q || c == '\\' then String.ofList ['\\', c]
  else if c == '\n' then "\\n"
  else if c == '\r' then "\\r"
  else if c == '\t' then "\\t"
  else if isPrintable c then c.toString
  else if c.toNat < 0x100 then "\\x" ++ hex 2 c.toNat
  else if c.toNat < 0x10000 then "\\u" ++ hex 4 c.toNat
  else "\\U" ++ hex 8 c.toNat

/-- The quote character for a text. -/
def quoteFor (s : String) : Char :=
  if s.toList.contains '\'' && !s.toList.contains '"' then '"' else '\''

/-- The quoted form of a text. -/
def quoted (s : String) : String :=
  let q := quoteFor s
  q.toString ++ String.join (s.toList.map (quoteChar q)) ++ q.toString

end Text
end Horn
