import Esql.Document.Json

/-!
# `Document.Json.Numeral` — reading JSON numbers

A number without fraction and exponent that fits 64 bits, with or without a sign, is an integer. Every
other number becomes a double in this way: as many digits as fit 64 unsigned bits make up a whole number,
digits after these count only by their place before the point, and the whole number is multiplied or
divided by a power of ten. Both the whole number and the power are doubles, and so is the result, so the
last digit may differ from that of the double nearest to the number as it is written.
-/

namespace Esql.Document.Json

open Esql.Number

/-- The largest number of 64 bits without a sign. -/
def maxUnsigned : Nat := UInt64.size - 1

/-- The largest number of 32 bits with a sign. -/
def maxExponent : Int := Int32.maxValue.toInt

/-- The largest power of ten that is multiplied or divided by at once. -/
def maxPower : Nat := 308

/-! ## Doubles -/

/-- The double nearest to a power of ten, the exponent being at most `maxPower`. -/
def powerOfTen (n : Nat) : Magnitude := (Magnitude.ofDecimal 1 n).getD Magnitude.zero

/-- A double times a power of ten, dividing by `10 ^ 308` first as often as the exponent is too low; none
where the result is too large. Two such divisions make every number below `2 ^ 64` zero. -/
def scale? : Nat → Magnitude → Int → Option Magnitude
  | n, x, e =>
    if e.natAbs ≤ maxPower then
      if e ≥ 0 then x.mul (powerOfTen e.toNat) else x.div (powerOfTen e.natAbs)
    else if x.significand = 0 then some x
    else if e ≥ 0 then none
    else
      match n with
      | 0 => none
      | n + 1 => (x.div (powerOfTen maxPower)).bind fun y => scale? n y (e + maxPower)

/-- The double that `whole * 10 ^ e` is read as, where `whole` has at most 64 bits. -/
def real? (negative : Bool) (whole : Nat) (e : Int) : Option Number :=
  ((Magnitude.ofRatio whole 1).bind fun x => scale? 4 x e).map (Number.real negative)

/-! ## Digits -/

/-- Append digits to a whole number as long as it fits 64 bits; with it the digits that are left. -/
def absorb : Nat → List Char → Nat × List Char
  | whole, [] => (whole, [])
  | whole, c :: digits =>
    let longer := whole * 10 + digitValue c
    if longer > maxUnsigned then (whole, c :: digits) else absorb longer digits

/-- The number whose text is `whole` digits, any digits after a point, and the value of an exponent. A
number without the last two has `none` for them. -/
def numberOf? (negative : Bool) (digits : List Char) (fraction : Option (List Char))
    (exponent : Option Int) : Option Number :=
  let (whole, dropped) := absorb 0 digits
  let (significand, unread) := absorb whole (fraction.getD [])
  let places : Int := dropped.length - ((fraction.getD []).length - unread.length : Nat)
  match fraction, exponent with
  | none, none =>
    if dropped ≠ [] then real? negative significand places
    else if ¬ negative then some (.integer whole)
    else if 0 < whole ∧ whole ≤ Nat.pow 2 63 then some (.integer (-whole))
    else real? true whole 0
  | _, none => real? negative significand places
  | _, some e =>
    if e.natAbs > maxExponent.toNat then
      -- So large an exponent decides alone.
      if significand ≠ 0 ∧ e > 0 then none else some (.real negative Magnitude.zero)
    else real? negative significand (max (-maxExponent - 1) (min maxExponent (places + e)))

/-! ## Text -/

/-- The digits at the start of a text, of which there must be one, and what follows them. -/
def digits? (cs : List Char) : Option (List Char × List Char) :=
  match cs.takeWhile Char.isDigit with
  | [] => none
  | digits => some (digits, cs.dropWhile Char.isDigit)

/-- The digits before the point: a zero alone, or digits of which the first is not zero. -/
def whole? (cs : List Char) : Option (List Char × List Char) :=
  match digits? cs with
  | some ('0' :: _ :: _, _) => none
  | found => found

/-- The fraction at the start of a text, if there is one; none where its digits are missing. -/
def fraction? : List Char → Option (Option (List Char) × List Char)
  | '.' :: cs => (digits? cs).map fun (digits, rest) => (some digits, rest)
  | cs => some (none, cs)

/-- The sign at the start of an exponent: whether it is a minus, and what follows it. -/
def exponentSign : List Char → Bool × List Char
  | '+' :: cs => (false, cs)
  | '-' :: cs => (true, cs)
  | cs => (false, cs)

/-- The exponent at the start of a text, if there is one; none where its digits are missing. -/
def exponent? : List Char → Option (Option Int × List Char)
  | c :: cs =>
    if c = 'e' || c = 'E' then
      let (negative, cs) := exponentSign cs
      (digits? cs).map fun (digits, rest) =>
        let e : Int := valueInBase 10 digits
        (some (if negative then -e else e), rest)
    else some (none, c :: cs)
  | [] => some (none, [])

/-- The number at the start of a text, and what follows it. -/
def number? (cs : List Char) : Option (Number × List Char) := do
  let (negative, cs) :=
    match cs with
    | '-' :: cs => (true, cs)
    | cs => (false, cs)
  let (digits, cs) ← whole? cs
  let (fraction, cs) ← fraction? cs
  let (exponent, cs) ← exponent? cs
  let n ← numberOf? negative digits fraction exponent
  return (n, cs)

end Esql.Document.Json
