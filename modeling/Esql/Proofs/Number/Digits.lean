import Esql.Number.Numeral
import Mathlib.Data.Nat.Digits.Defs

/-!
# `Proofs.Number.Digits` — the digits of numbers

A number in base ten is written in digits of which the first is no zero, unless it is zero itself, and the digits make
up that number again (`valueInBase_decimal`). With zeros in front it has any width that it fits
(`length_decimalOfWidth`), and still makes up that number (`valueInBase_decimalOfWidth`).
-/

namespace Esql.Number

/-! ## Digits in base ten -/

theorem isDigit_decimal {n : Nat} {c : Char} (h : c ∈ decimal n) : c.isDigit = true :=
  Nat.isDigit_of_mem_toDigits (by decide) (by decide) h

theorem decimal_ne_nil (n : Nat) : decimal n ≠ [] := Nat.toDigits_ne_nil

/-- A number above zero is not written with a zero in front. -/
theorem head?_decimal {n : Nat} (h : 0 < n) : (decimal n).head? ≠ some '0' := by
  induction n using Nat.strongRecOn with
  | ind n ih =>
      rw [decimal, Nat.toDigits_eq_if (by decide)]
      split
      · intro hzero
        simp at hzero
        omega
      · have htenth := ih (n / 10) (by omega) (by omega)
        obtain ⟨d, digits, hd⟩ := List.exists_cons_of_ne_nil (decimal_ne_nil (n / 10))
        rw [hd] at htenth
        rw [← decimal, hd]
        exact htenth

/-! ## The number that digits make up -/

/-- Digits are read one after another, each behind ten times what stands before it. -/
theorem foldl_digitValue {digits : List Char} (h : ∀ c ∈ digits, c.isDigit = true) (n : Nat) :
    digits.foldl (fun n c => n * 10 + digitValue c) n = Nat.ofDigitChars 10 digits n := by
  induction digits generalizing n with
  | nil => rfl
  | cons c digits ih =>
      have hvalue : digitValue c = c.toNat - '0'.toNat := by rw [digitValue, if_pos (h c (.head _))]
      rw [List.foldl_cons, Nat.ofDigitChars_cons, ih fun d hd => h d (.tail _ hd), hvalue, Nat.mul_comm]

theorem valueInBase_decimal (n : Nat) : valueInBase 10 (decimal n) = n := by
  unfold valueInBase
  rw [foldl_digitValue fun c => isDigit_decimal]
  exact Nat.ofDigitChars_toDigits (by decide) (by decide)

theorem valueInBase_zeros (k : Nat) (digits : List Char) :
    valueInBase 10 (List.replicate k '0' ++ digits) = valueInBase 10 digits := by
  induction k with
  | zero => rfl
  | succ k ih => exact ih

/-! ## Digits of a given width -/

theorem isDigit_decimalOfWidth {width n : Nat} {c : Char} (h : c ∈ decimalOfWidth width n) : c.isDigit = true := by
  unfold decimalOfWidth at h
  obtain hzero | hdigit := List.mem_append.mp h
  · rw [List.eq_of_mem_replicate hzero]
    rfl
  · exact isDigit_decimal hdigit

theorem valueInBase_decimalOfWidth (width n : Nat) : valueInBase 10 (decimalOfWidth width n) = n := by
  unfold decimalOfWidth
  rw [valueInBase_zeros, valueInBase_decimal]

theorem length_decimalOfWidth {width n : Nat} (hwidth : 0 < width) (hn : n < 10 ^ width) :
    (decimalOfWidth width n).length = width := by
  have hle : (decimal n).length ≤ width := Nat.toDigits_length 10 n width hwidth hn
  unfold decimalOfWidth
  rw [List.length_append, List.length_replicate, Nat.sub_add_cancel hle]

end Esql.Number
