import Esql.Proofs.Document.JsonText
import Esql.Proofs.Number.Digits

/-!
# `Proofs.Document.JsonNumbers` — written numbers are read again

A whole number of 64 bits is read as it is written, if nothing follows that could belong to it
(`number?_decimal`). Its digits are taken off as a whole and have no zero in front (`whole?_decimal`), and they
are all used up while the number that they make up still has 64 bits (`absorb_eq`); a longer number would become
a double.

## Contents
- The digits of a number, one after another.
- Numbers and values that are numbers.
-/

namespace Esql.Document.Json

open Esql.Number

/-! ## Digits -/

/-- A written number is free of control characters. -/
theorem visible_decimal {n : Nat} {c : Char} (h : c ∈ decimal n) : ¬ c.toNat < 0x20 := by
  have hdigit : '0'.toNat ≤ c.toNat ∧ c.toNat ≤ '9'.toNat := Char.isDigit_iff_toNat.mp (isDigit_decimal h)
  have hzero : '0'.toNat = 48 := rfl
  omega

theorem le_ofDigitChars (digits : List Char) (n : Nat) : n ≤ Nat.ofDigitChars 10 digits n := by
  induction digits generalizing n with
  | nil => exact Nat.le_refl n
  | cons c digits ih =>
      rw [Nat.ofDigitChars_cons]
      exact Nat.le_trans (by omega) (ih _)

/-- Digits that stand for a number of 64 bits are all used up. -/
theorem absorb_eq {digits : List Char} (hdigits : ∀ c ∈ digits, c.isDigit = true) {whole : Nat}
    (h : Nat.ofDigitChars 10 digits whole ≤ maxUnsigned) :
    absorb whole digits = (Nat.ofDigitChars 10 digits whole, []) := by
  induction digits generalizing whole with
  | nil => rfl
  | cons c digits ih =>
      rw [Nat.ofDigitChars_cons] at h ⊢
      have hvalue : whole * 10 + digitValue c = 10 * whole + (c.toNat - '0'.toNat) := by
        rw [digitValue, if_pos (hdigits c (.head _)), Nat.mul_comm]
      have hfits : ¬ 10 * whole + (c.toNat - '0'.toNat) > maxUnsigned :=
        Nat.not_lt.mpr (Nat.le_trans (le_ofDigitChars digits _) h)
      rw [absorb, hvalue, if_neg hfits]
      exact ih (fun c hc => hdigits c (.tail _ hc)) h

/-! ## Numbers -/

/-- Whether a character cannot go on a number. -/
def endsNumber (c : Char) : Bool := !(c.isDigit || c == '.' || c == 'e' || c == 'E')

theorem digits?_decimal (n : Nat) {c : Char} (hc : c.isDigit = false) (rest : List Char) :
    digits? (decimal n ++ c :: rest) = some (decimal n, c :: rest) := by
  have hall : ∀ d ∈ decimal n, d.isDigit = true := fun d => isDigit_decimal
  have htake : (decimal n ++ c :: rest).takeWhile Char.isDigit = decimal n := by
    rw [List.takeWhile_append_of_pos hall]
    simp [hc]
  have hdrop : (decimal n ++ c :: rest).dropWhile Char.isDigit = c :: rest := by
    rw [List.dropWhile_append_of_pos hall]
    simp [hc]
  rw [digits?, htake, hdrop]
  split
  · exact absurd ‹_› (decimal_ne_nil n)
  · rfl

theorem whole?_decimal (n : Nat) {c : Char} (hc : c.isDigit = false) (rest : List Char) :
    whole? (decimal n ++ c :: rest) = some (decimal n, c :: rest) := by
  rw [whole?, digits?_decimal n hc]
  split
  case h_1 d digits rest heq =>
    -- Only zero is written with a zero in front, and no digit stands behind that.
    obtain ⟨hdecimal, -⟩ := Prod.mk.inj (Option.some.inj heq)
    obtain rfl | hn := Nat.eq_zero_or_pos n
    · cases hdecimal
    · exact absurd (congrArg List.head? hdecimal) (head?_decimal hn)
  case h_2 => rfl

/-- The digits of a number of 64 bits make up that number. -/
theorem numberOf?_decimal {n : Nat} (hn : n ≤ maxUnsigned) :
    numberOf? false (decimal n) none none = some (.integer n) := by
  have hvalue : Nat.ofDigitChars 10 (decimal n) 0 = n := Nat.ofDigitChars_toDigits (by decide) (by decide)
  have habsorb : absorb 0 (decimal n) = (n, []) := by
    rw [absorb_eq (fun d => isDigit_decimal) (hvalue.symm ▸ hn), hvalue]
  simp [numberOf?, habsorb]

/-- A whole number of 64 bits is read as it is written, where nothing follows that could belong to it. -/
theorem number?_decimal {n : Nat} (hn : n ≤ maxUnsigned) {c : Char} (hc : endsNumber c = true)
    (rest : List Char) : number? (decimal n ++ c :: rest) = some (.integer n, c :: rest) := by
  simp only [endsNumber, Bool.not_eq_true', Bool.or_eq_false_iff, beq_eq_false_iff_ne] at hc
  obtain ⟨⟨⟨hdigit, hpoint⟩, hsmall⟩, hcapital⟩ := hc
  have hwhole := whole?_decimal n hdigit rest
  have hnumber := numberOf?_decimal hn
  obtain ⟨d, digits, hd⟩ := List.exists_cons_of_ne_nil (decimal_ne_nil n)
  have hsign : d ≠ '-' := by
    rintro rfl
    have hmem : '-' ∈ decimal n := by rw [hd]; exact .head _
    exact absurd (isDigit_decimal hmem) (by decide)
  rw [hd] at hwhole hnumber ⊢
  rw [List.cons_append] at hwhole ⊢
  simp [number?, hsign, hwhole, fraction?, hpoint, exponent?, hsmall, hcapital, hnumber]

theorem value?_decimal {n : Nat} (hn : n ≤ maxUnsigned) (levels : Nat) {c : Char} (hc : endsNumber c = true)
    (rest : List Char) : value? levels (decimal n ++ c :: rest) = some (.number (.integer n), c :: rest) := by
  have hnumber := number?_decimal hn hc rest
  obtain ⟨d, digits, hd⟩ := List.exists_cons_of_ne_nil (decimal_ne_nil n)
  have hdigit : d.isDigit = true := isDigit_decimal (n := n) (hd ▸ .head _)
  -- A digit is none of the characters with which other values begin.
  have hne : ∀ x : Char, x.isDigit = false → d ≠ x := by
    rintro x hx rfl
    rw [hdigit] at hx
    cases hx
  rw [hd, List.cons_append] at hnumber ⊢
  have hspace : skipSpace (d :: (digits ++ c :: rest)) = d :: (digits ++ c :: rest) := by
    simp [skipSpace, isSpace, hne ' ' rfl, hne '\t' rfl, hne '\n' rfl, hne '\r' rfl]
  have hscalar : scalar? (d :: (digits ++ c :: rest)) = some (.number (.integer n), c :: rest) := by
    simp [scalar?, hne '"' rfl, hne 't' rfl, hne 'f' rfl, hne 'n' rfl, hnumber]
  cases levels with
  | zero => rw [value?, hspace, hscalar]
  | succ levels => simp [value?, hspace, hscalar, hne '[' rfl, hne '\x7b' rfl]

end Esql.Document.Json
