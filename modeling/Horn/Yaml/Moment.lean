/-!
# Dates and times

A moment is a date, or a date with a time of day and possibly a difference to universal time.
`Moment.ofText?` reads the spellings that a document may use, `Moment.isValid` says whether the
calendar has the moment, and `Moment.text` is its one written form.
-/

namespace Horn
namespace Yaml

/-- A time of day. -/
structure DayTime where
  hour : Nat
  minute : Nat
  second : Nat
  microsecond : Nat
  /-- The minutes by which the clock is ahead of universal time, if that is known. -/
  zone : Option Int
  deriving DecidableEq, Inhabited

/-- A date, with a time of day or without. -/
structure Moment where
  year : Nat
  month : Nat
  day : Nat
  time : Option DayTime
  deriving DecidableEq, Inhabited

namespace Moment

/-! ### Reading -/

/-- The number that digits denote. -/
def digitsValue (ds : List Char) : Nat :=
  ds.foldl (fun n d => 10 * n + (d.toNat - '0'.toNat)) 0

/-- The digits at the front of a text, between `least` and `most` of them, as a number. -/
def digits? (least most : Nat) (cs : List Char) : Option (Nat × List Char) :=
  let ds := (cs.take most).takeWhile Char.isDigit
  if ds.length < least then none else some (digitsValue ds, cs.drop ds.length)

/-- What stands behind a sign. -/
def behind? (sign : Char) : List Char → Option (List Char)
  | [] => none
  | c :: cs => if c == sign then some cs else none

/-- Blanks and tabs at the front of a text. -/
def isBlank (c : Char) : Bool := c == ' ' || c == '\t'

/-- Millionths from the digits of a fraction; further digits do not count. -/
def microseconds (ds : List Char) : Nat :=
  let ds := ds.take 6
  digitsValue ds * Nat.pow 10 (6 - ds.length)

/-- The difference to universal time at the end of a moment. -/
def zone? (cs : List Char) : Option (Option Int) :=
  match cs.dropWhile isBlank with
  | [] => if cs.isEmpty then some none else none
  | ['Z'] => some (some 0)
  | sign :: cs =>
    if sign == '+' || sign == '-' then do
      let (hours, cs) ← digits? 1 2 cs
      let (minutes, cs) ← match behind? ':' cs with
        | some cs => digits? 2 2 cs
        | none => some (0, cs)
      let n : Int := 60 * hours + minutes
      if cs.isEmpty then some (some (if sign == '-' then -n else n)) else none
    else none

/-- The time of day behind a date. -/
def dayTime? (cs : List Char) : Option DayTime := do
  let cs ← match cs with
    | 'T' :: cs => some cs
    | 't' :: cs => some cs
    | c :: cs => if isBlank c then some (cs.dropWhile isBlank) else none
    | [] => none
  let (hour, cs) ← digits? 1 2 cs
  let (minute, cs) ← (behind? ':' cs).bind (digits? 2 2)
  let (second, cs) ← (behind? ':' cs).bind (digits? 2 2)
  let (fraction, cs) := match behind? '.' cs with
    | some cs => (cs.takeWhile Char.isDigit, cs.dropWhile Char.isDigit)
    | none => ([], cs)
  let zone ← zone? cs
  some ⟨hour, minute, second, microseconds fraction, zone⟩

/-- The moment that a text spells. Month and day of a mere date may have one digit if `short` says
so. -/
def ofText? (short : Bool) (text : String) : Option Moment := do
  let (year, cs) ← digits? 4 4 text.toList
  let (month, after) ← (behind? '-' cs).bind (digits? 1 2)
  let (day, rest) ← (behind? '-' after).bind (digits? 1 2)
  if rest.isEmpty then
    if short || text.length == 10 then some ⟨year, month, day, none⟩ else none
  else (dayTime? rest).map fun time => ⟨year, month, day, some time⟩

/-! ### The calendar -/

/-- Whether a year has 366 days. -/
def isLeap (year : Nat) : Bool := year % 4 == 0 && (year % 100 != 0 || year % 400 == 0)

/-- The number of days of a month. -/
def monthLength (year month : Nat) : Nat :=
  if month = 2 then (if isLeap year then 29 else 28)
  else if month = 4 ∨ month = 6 ∨ month = 9 ∨ month = 11 then 30
  else 31

/-- Whether a day has the time. -/
def DayTime.isValid (t : DayTime) : Bool :=
  t.hour < 24 && t.minute < 60 && t.second < 60
    && (t.zone.map fun z => decide (z.natAbs < 24 * 60)).getD true

/-- Whether the calendar has the moment. -/
def isValid (m : Moment) : Bool :=
  1 ≤ m.year && 1 ≤ m.month && m.month ≤ 12 && 1 ≤ m.day && m.day ≤ monthLength m.year m.month
    && (m.time.map DayTime.isValid).getD true

/-! ### Writing -/

/-- A number with zeros in front, up to a number of digits. -/
def padded (width n : Nat) : String :=
  let s := toString n
  String.ofList (List.replicate (width - s.length) '0') ++ s

/-- The difference to universal time. -/
def zoneText (z : Int) : String :=
  (if z < 0 then "-" else "+") ++ padded 2 (z.natAbs / 60) ++ ":" ++ padded 2 (z.natAbs % 60)

/-- The time of day. -/
def timeText (t : DayTime) : String :=
  padded 2 t.hour ++ ":" ++ padded 2 t.minute ++ ":" ++ padded 2 t.second
    ++ (if t.microsecond = 0 then "" else "." ++ padded 6 t.microsecond)
    ++ ((t.zone.map zoneText).getD "")

/-- The text of a moment: `2001-12-14 21:59:43.100000-05:00`. -/
def text (m : Moment) : String :=
  padded 4 m.year ++ "-" ++ padded 2 m.month ++ "-" ++ padded 2 m.day
    ++ ((m.time.map fun t => " " ++ timeText t).getD "")

end Moment

end Yaml
end Horn
