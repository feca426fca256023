import Esql.Number.Numeral

/-!
# `Document.Toml.DateTime` — dates and times

A date, a time of day, or both, and with both perhaps an offset from UTC. `dateTime?` reads one off the
start of a text, and `DateTime.text` writes the one form that all of them have.
-/

namespace Esql.Document.Toml

open Esql.Number

/-- A day of the calendar. -/
structure Date where
  year : Nat
  month : Nat
  day : Nat
deriving DecidableEq, Repr

/-- A time of day. -/
structure Time where
  hour : Nat
  minute : Nat
  second : Nat
  nanosecond : Nat
deriving DecidableEq, Repr

/-- How far a time is from UTC. -/
inductive Offset where
  | utc
  | minutes (n : Int)
deriving DecidableEq, Repr

/-- A date, a time of day, or both. -/
inductive DateTime where
  | day (date : Date)
  | time (time : Time)
  | moment (date : Date) (time : Time) (offset : Option Offset)
deriving DecidableEq, Repr

/-! ## Reading -/

/-- A number of exactly two digits, from `low` to `high`. -/
def twoDigits? (low high : Nat) : List Char → Option (Nat × List Char)
  | a :: b :: rest =>
    let n := valueInBase 10 [a, b]
    if a.isDigit ∧ b.isDigit ∧ low ≤ n ∧ n ≤ high then some (n, rest) else none
  | _ => none

/-- The text behind a character that must stand at its start. -/
def behind? (c : Char) : List Char → Option (List Char)
  | d :: rest => if d = c then some rest else none
  | [] => none

/-- How many days a month has. -/
def daysInMonth (year month : Nat) : Nat :=
  if month = 2 then
    if year % 4 = 0 ∧ (year % 100 ≠ 0 ∨ year % 400 = 0) then 29 else 28
  else if month = 4 ∨ month = 6 ∨ month = 9 ∨ month = 11 then 30
  else 31

/-- A date at the start of a text. -/
def date? (cs : List Char) : Option (Date × List Char) := do
  let (century, cs) ← twoDigits? 0 99 cs
  let (year, cs) ← twoDigits? 0 99 cs
  let (month, cs) ← twoDigits? 1 12 (← behind? '-' cs)
  let (day, cs) ← twoDigits? 1 (daysInMonth (century * 100 + year) month) (← behind? '-' cs)
  return (⟨century * 100 + year, month, day⟩, cs)

/-- The fraction of a second at the start of a text, in nanoseconds; 0 where there is none. Digits after
the ninth do not count. -/
def fraction (cs : List Char) : Nat × List Char :=
  match cs with
  | '.' :: rest =>
    match rest.takeWhile Char.isDigit with
    | [] => (0, cs)
    | digits =>
      let nine := digits.take 9
      (valueInBase 10 nine * Nat.pow 10 (9 - nine.length), rest.dropWhile Char.isDigit)
  | _ => (0, cs)

/-- A time of day at the start of a text. -/
def time? (cs : List Char) : Option (Time × List Char) := do
  let (hour, cs) ← twoDigits? 0 23 cs
  let (minute, cs) ← twoDigits? 0 59 (← behind? ':' cs)
  -- A minute may have a leap second.
  let (second, cs) ← twoDigits? 0 60 (← behind? ':' cs)
  let (nanosecond, cs) := fraction cs
  return (⟨hour, minute, second, nanosecond⟩, cs)

/-- Hours and minutes of an offset, less than a day in all. -/
def offsetMinutes? (cs : List Char) : Option (Nat × List Char) := do
  let (hour, cs) ← twoDigits? 0 23 cs
  let (minute, cs) ← twoDigits? 0 59 (← behind? ':' cs)
  return (hour * 60 + minute, cs)

/-- The offset at the start of a text, if there is one; none where it is incomplete. -/
def offset? : List Char → Option (Option Offset × List Char)
  | 'Z' :: cs => some (some .utc, cs)
  | 'z' :: cs => some (some .utc, cs)
  | '+' :: cs => (offsetMinutes? cs).map fun (n, cs) => (some (.minutes n), cs)
  | '-' :: cs => (offsetMinutes? cs).map fun (n, cs) => (some (.minutes (-(n : Int))), cs)
  | cs => some (none, cs)

/-- The time and offset that belong to a date, behind what separates them. -/
def timeOfDay? (cs : List Char) : Option (Time × Option Offset × List Char) :=
  match cs with
  | c :: cs =>
    if c = 'T' ∨ c = 't' ∨ c = ' ' then do
      let (time, cs) ← time? cs
      let (offset, cs) ← offset? cs
      return (time, offset, cs)
    else none
  | [] => none

/-- A date, a time of day, or both, at the start of a text. -/
def dateTime? (cs : List Char) : Option (DateTime × List Char) :=
  match cs with
  | _ :: _ :: ':' :: _ => (time? cs).map fun (time, cs) => (.time time, cs)
  | _ => do
    let (date, cs) ← date? cs
    match timeOfDay? cs with
    | some (time, offset, cs) => return (.moment date time offset, cs)
    | none => return (.day date, cs)

/-! ## Writing -/

namespace DateTime

/-- The text of a date. -/
def dateText (d : Date) : List Char :=
  decimalOfWidth 4 d.year ++ '-' :: decimalOfWidth 2 d.month ++ '-' :: decimalOfWidth 2 d.day

/-- The text of a fraction of a second, without zeros at its end. -/
def fractionText (nanosecond : Nat) : List Char :=
  if nanosecond = 0 then []
  else '.' :: ((decimalOfWidth 9 nanosecond).reverse.dropWhile (· = '0')).reverse

/-- The text of a time of day. -/
def timeText (t : Time) : List Char :=
  decimalOfWidth 2 t.hour ++ ':' :: decimalOfWidth 2 t.minute ++ ':' :: decimalOfWidth 2 t.second
    ++ fractionText t.nanosecond

/-- The text of an offset. -/
def offsetText : Offset → List Char
  | .utc => ['Z']
  | .minutes n =>
    (if n < 0 then '-' else '+') :: decimalOfWidth 2 (n.natAbs / 60)
      ++ ':' :: decimalOfWidth 2 (n.natAbs % 60)

/-- The text of a date, a time of day, or both. -/
def text : DateTime → List Char
  | day d => dateText d
  | time t => timeText t
  | moment d t offset => dateText d ++ 'T' :: timeText t ++ (offset.map offsetText).getD []

end DateTime

end Esql.Document.Toml
