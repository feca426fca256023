/-!
# `Number.Numeral` — numbers written in digits

The value of a row of digits in some base, and the digits of a number in base ten.
-/

namespace Esql.Number

/-- The value of a digit up to `f`; 0 for any other character. -/
def digitValue (c : Char) : Nat :=
  if c.isDigit then c.toNat - '0'.toNat
  else if 'a' ≤ c ∧ c ≤ 'f' then c.toNat - 'a'.toNat + 10
  else if 'A' ≤ c ∧ c ≤ 'F' then c.toNat - 'A'.toNat + 10
  else 0

/-- A digit of base sixteen, small or capital. -/
def isHexDigit (c : Char) : Bool :=
  c.isDigit || ('a' ≤ c && c ≤ 'f') || ('A' ≤ c && c ≤ 'F')

/-- The number that a row of digits stands for. -/
def valueInBase (base : Nat) (digits : List Char) : Nat :=
  digits.foldl (fun n c => n * base + digitValue c) 0

/-- The digits of a number in base ten, without leading zeros. -/
def decimal (n : Nat) : List Char := Nat.toDigits 10 n

/-- The digits of a number in base ten, with leading zeros up to a width. -/
def decimalOfWidth (width n : Nat) : List Char :=
  let digits := decimal n
  List.replicate (width - digits.length) '0' ++ digits

/-- An integer in base ten, with a minus sign where it is negative. -/
def signedDecimal : Int → List Char
  | .ofNat n => decimal n
  | .negSucc n => '-' :: decimal (n + 1)

theorem valueInBase_append_one (base : Nat) (digits : List Char) (c : Char) :
    valueInBase base (digits ++ [c]) = valueInBase base digits * base + digitValue c := by
  simp [valueInBase]

end Esql.Number
