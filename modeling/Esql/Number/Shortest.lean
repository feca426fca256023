import Esql.Number.Double

/-!
# `Number.Shortest` — the fewest digits that read back

The numbers that are read as a given double form an interval around it, ends included where its
significand is even. Among the decimals with one digit, with two, and so on, the first that lie in the
interval are taken; of two, the nearer to the double. Whatever number of digits has a decimal in the
interval has one next to the double, so only the two neighbours of the double are tried.

How the digits are laid out is the choice of a format, given by a `Layout`.
-/

namespace Esql.Number

/-- The decimal `digits * 10 ^ exponent`. -/
structure Decimal where
  digits : Nat
  exponent : Int
deriving DecidableEq, Repr

/-- The interval of numbers that are read as one double, and the double in it, as fractions of one
denominator. -/
structure Rounding where
  low : Nat
  value : Nat
  high : Nat
  denominator : Nat
  /-- The ends belong to the interval. -/
  closed : Bool

namespace Rounding

/-- The interval of a double. -/
def ofMagnitude (x : Magnitude) : Rounding :=
  -- In quarters of the last place the neighbours lie 4 apart, or 2 below a power of two.
  let below := if x.significand = Nat.pow 2 52 ∧ x.exponent > minExponent then 1 else 2
  let e := x.exponent - 2
  let scale := if e ≥ 0 then Nat.pow 2 e.toNat else 1
  { low := (4 * x.significand - below) * scale
    value := 4 * x.significand * scale
    high := (4 * x.significand + 2) * scale
    denominator := if e ≥ 0 then 1 else Nat.pow 2 (-e).toNat
    closed := x.significand % 2 = 0 }

/-- Whether `num / den` lies in the interval. -/
def contains (r : Rounding) (num den : Nat) : Bool :=
  let n := num * r.denominator
  if r.closed then r.low * den ≤ n && n ≤ r.high * den else r.low * den < n && n < r.high * den

/-- The decimal in the interval that is a multiple of `10 ^ p` and nearest to the double. -/
def onGrid? (r : Rounding) (tiesUp : Bool) (p : Int) : Option Decimal :=
  let unit := if p ≥ 0 then Nat.pow 10 p.toNat else 1
  let den := if p ≥ 0 then 1 else Nat.pow 10 (-p).toNat
  -- The double in units of the grid is `num / part`.
  let num := r.value * den
  let part := r.denominator * unit
  let floor := num / part
  let above := floor + 1
  match r.contains (floor * unit) den, r.contains (above * unit) den with
  | true, true =>
    let twice := 2 * (num % part)
    let goesUp := twice > part || (twice = part && (tiesUp || floor % 2 = 1))
    some ⟨if goesUp then above else floor, p⟩
  | true, false => some ⟨floor, p⟩
  | false, true => some ⟨above, p⟩
  | false, false => none

end Rounding

/-- Try grids of growing fineness, the first of which has multiples of `10 ^ p`. -/
def firstOnGrid (r : Rounding) (tiesUp : Bool) : Nat → Int → Option Decimal
  | 0, _ => none
  | n + 1, p => (r.onGrid? tiesUp p).or (firstOnGrid r tiesUp n (p - 1))

/-- Move zeros at the end of the digits to the exponent; `n` bounds their number. -/
def Decimal.strip : Nat → Decimal → Decimal
  | 0, d => d
  | n + 1, d => if d.digits % 10 = 0 then strip n ⟨d.digits / 10, d.exponent + 1⟩ else d

/-- The greatest `k` with `10 ^ k ≤ num / den`, for positive numbers of doubles. -/
def floorLog10 (num den : Nat) : Int :=
  if num ≥ den then ((decimal (num / den)).length : Int) - 1
  else
    -- `10 ^ j` is the first power of ten with `den ≤ 10 ^ j * num` when `(den - 1) / num` has `j` digits.
    -((decimal ((den - 1) / num)).length : Int)

/-- The shortest decimal that is read as a double that is not zero. -/
def shortest (tiesUp : Bool) (x : Magnitude) : Decimal :=
  let r := Rounding.ofMagnitude x
  ((firstOnGrid r tiesUp 18 (floorLog10 r.value r.denominator)).getD ⟨0, 0⟩).strip 18

/-! ## Layouts -/

/-- How a format writes a double. -/
structure Layout where
  /-- Half-way between two shortest decimals the larger is taken, not the one with the even digit. -/
  tiesUp : Bool
  /-- Whether a number is written without an exponent, by the place of its first digit. -/
  isPlain : Int → Bool

namespace Layout

/-- The digits with a point at its place and at least one digit on each side of it. -/
def plain (d : Decimal) : List Char :=
  let digits := decimal d.digits
  if d.exponent ≥ 0 then digits ++ List.replicate d.exponent.toNat '0' ++ ['.', '0']
  else
    let places := (-d.exponent).toNat
    let padded := List.replicate (places + 1 - digits.length) '0' ++ digits
    padded.take (padded.length - places) ++ '.' :: padded.drop (padded.length - places)

/-- The digits with a point behind the first and the place of the first as exponent. -/
def scientific (d : Decimal) (place : Int) : List Char :=
  let mantissa :=
    match decimal d.digits with
    | first :: second :: others => first :: '.' :: second :: others
    | digits => digits
  mantissa ++ 'e' :: (if place ≥ 0 then '+' else '-') :: decimal place.natAbs

/-- The text of a finite double. -/
def text (layout : Layout) (negative : Bool) (x : Magnitude) : List Char :=
  let sign := if negative then ['-'] else []
  if x.significand = 0 then sign ++ ['0', '.', '0']
  else
    let d := shortest layout.tiesUp x
    let place := d.exponent + (decimal d.digits).length - 1
    sign ++ if layout.isPlain place then plain d else scientific d place

end Layout

end Esql.Number
