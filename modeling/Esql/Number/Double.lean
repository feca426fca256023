import Esql.Number.Numeral

/-!
# `Number.Double` — binary floating point of double precision

A finite double is a whole significand below `2 ^ 53` times a power of two that is at least `2 ^ -1074`.
All arithmetic here is exact until one last rounding, to the nearest double and from half-way to the one
with the even significand; everything is computed on natural numbers.

## Contents
- `Magnitude`, the size of a finite double;
- `roundDiv` and `Magnitude.ofRatio`, the rounding of a ratio;
- `Magnitude.ofScaled` and `Magnitude.ofDecimal`, numbers given with a power of two or ten;
- `Double`, with signs, infinities and the value that is not a number.
-/

namespace Esql.Number

/-- The size of a finite double: `significand * 2 ^ exponent`. -/
structure Magnitude where
  significand : Nat
  exponent : Int
deriving DecidableEq, Repr

/-- The least exponent of a double. -/
def minExponent : Int := -1074

/-- The greatest exponent of a double. -/
def maxExponent : Int := 971

/-- The ratio of two numbers, rounded to the nearest whole number and from half-way to the even one. -/
def roundDiv (num den : Nat) : Nat :=
  let whole := num / den
  let twice := 2 * (num % den)
  if twice > den ∨ (twice = den ∧ whole % 2 = 1) then whole + 1 else whole

/-- The greatest `k` with `2 ^ k ≤ num / den`, for positive numbers. -/
def floorLog2 (num den : Nat) : Int :=
  let guess : Int := (num.log2 : Int) - (den.log2 : Int)
  -- The guess is right or one too large.
  let reached := if guess ≥ 0 then den * Nat.pow 2 guess.toNat ≤ num else den ≤ num * Nat.pow 2 (-guess).toNat
  if reached then guess else guess - 1

namespace Magnitude

def zero : Magnitude := ⟨0, minExponent⟩

/-- The double nearest to `num / den`; none where it is too large for one. -/
def ofRatio (num den : Nat) : Option Magnitude :=
  if num = 0 then some zero
  else
    let exponent := max (floorLog2 num den - 52) minExponent
    let significand :=
      if exponent ≥ 0 then roundDiv num (den * Nat.pow 2 exponent.toNat)
      else roundDiv (num * Nat.pow 2 (-exponent).toNat) den
    let rounded : Magnitude :=
      if significand = Nat.pow 2 53 then ⟨Nat.pow 2 52, exponent + 1⟩ else ⟨significand, exponent⟩
    if rounded.exponent > maxExponent then none else some rounded

/-- The double nearest to `m * 2 ^ e`. -/
def ofScaled (m : Nat) (e : Int) : Option Magnitude :=
  if e ≥ 0 then ofRatio (m * Nat.pow 2 e.toNat) 1 else ofRatio m (Nat.pow 2 (-e).toNat)

/-- The double nearest to `m * 10 ^ e`. -/
def ofDecimal (m : Nat) (e : Int) : Option Magnitude :=
  -- The common logarithm of `m` is at least a quarter of the binary one, and at most a third of it and one.
  -- Beyond these sizes the result is known, and the power of ten might be huge.
  if m = 0 ∨ (m.log2 / 3 : Nat) + e < -400 then some zero
  else if (m.log2 / 4 : Nat) + e > 400 then none
  else if e ≥ 0 then ofRatio (m * Nat.pow 10 e.toNat) 1
  else ofRatio m (Nat.pow 10 (-e).toNat)

/-- The rounded product of two doubles. -/
def mul (a b : Magnitude) : Option Magnitude :=
  ofScaled (a.significand * b.significand) (a.exponent + b.exponent)

/-- The rounded quotient of two doubles, the second of which is not zero. -/
def div (a b : Magnitude) : Option Magnitude :=
  let e := a.exponent - b.exponent
  if e ≥ 0 then ofRatio (a.significand * Nat.pow 2 e.toNat) b.significand
  else ofRatio a.significand (b.significand * Nat.pow 2 (-e).toNat)

end Magnitude

/-- A double. -/
inductive Double where
  | finite (negative : Bool) (size : Magnitude)
  | infinite (negative : Bool)
  | notANumber
deriving DecidableEq, Repr

/-! ## Values near the edges -/

example : Magnitude.ofDecimal 1 0 = some ⟨2 ^ 52, -52⟩ := by decide +kernel

example : Magnitude.ofDecimal 9007199254740993 0 = some ⟨2 ^ 52, 1⟩ := by decide +kernel

example : Magnitude.ofDecimal 5 (-324) = some ⟨1, -1074⟩ := by decide +kernel

example : Magnitude.ofDecimal 24 (-325) = some ⟨0, -1074⟩ := by decide +kernel

example : Magnitude.ofDecimal 17976931348623157 292 = some ⟨2 ^ 53 - 1, 971⟩ := by decide +kernel

example : Magnitude.ofDecimal 17976931348623159 292 = none := by decide +kernel

end Esql.Number
