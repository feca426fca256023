/-!
# `Text.Blank` — blank characters

The characters with the Unicode property `White_Space`, as the ranges of their code points, and the
text without the blanks at its two ends. Statements may be written in any script, so the ASCII class of
the standard library is too small here: `isBlank_of_isWhitespace` says that it is contained in this one.
-/

namespace Esql.Text

/-- The code points with the property `White_Space`, as closed ranges in increasing order. -/
def blankRanges : List (Nat × Nat) :=
  [(0x09, 0x0D), (0x20, 0x20), (0x85, 0x85), (0xA0, 0xA0), (0x1680, 0x1680), (0x2000, 0x200A),
   (0x2028, 0x2029), (0x202F, 0x202F), (0x205F, 0x205F), (0x3000, 0x3000)]

/-- A character is blank when its code point lies in one of the ranges. -/
def isBlank (c : Char) : Bool :=
  blankRanges.any fun range => range.1 ≤ c.toNat && c.toNat ≤ range.2

/-- The text from its first character that is not blank. -/
def trimStart (cs : List Char) : List Char := cs.dropWhile isBlank

/-- The text up to its last character that is not blank. -/
def trimEnd (cs : List Char) : List Char := (trimStart cs.reverse).reverse

/-- The text without the blanks at its two ends. -/
def trim (cs : List Char) : List Char := trimEnd (trimStart cs)

/-! ## What the table holds -/

example : (blankRanges.map fun range => range.2 + 1 - range.1).sum = 25 := by decide

example : isBlank '\n' ∧ isBlank '\x0b' ∧ isBlank '\u00a0' ∧ ¬ isBlank '\u200b' := by decide

/-- Every blank of the standard library is blank here. -/
theorem isBlank_of_isWhitespace {c : Char} (h : c.isWhitespace = true) : isBlank c = true := by
  simp only [Char.isWhitespace, Bool.or_eq_true, decide_eq_true_eq] at h
  rcases h with ((h | h) | h) | h <;> subst h <;> decide

end Esql.Text
