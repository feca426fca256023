import Esql.Syntax.Lexeme

/-!
# `Proofs.Tokens.Signs` — operators and their signs

A token that is no name, no literal and no string has one text only, its sign. What is read as an operator begins
with the sign of its kind (`operator_begins`), and the sign of a kind is read as that kind where it stands alone
(`operator_of_sign`). So what is asked of operators is asked of the signs, of which there are finitely many.

## Contents
- `Kind.sign?` and what all signs have in common.
- `operator_begins`, `operator_of_sign`, and that no two kinds have one sign.
-/

namespace Esql.Syntax

variable {j k kind : Kind} {cs text : List Char} {n : Nat}

/-! ## Signs -/

/-- The characters of an operator; none for kinds of token that may have more than one text. -/
def Kind.sign? : Kind → Option (List Char)
  | identifier | quotedIdentifier | source | namePattern | string | integer | decimal | endOfText => none
  | parameter => some ['?']
  | equal => some ['=', '=']
  | notEqual => some ['!', '=']
  | less => some ['<']
  | lessEqual => some ['<', '=']
  | greater => some ['>']
  | greaterEqual => some ['>', '=']
  | equalAnyCase => some ['=', '~']
  | assign => some ['=']
  | plus => some ['+']
  | minus => some ['-']
  | star => some ['*']
  | slash => some ['/']
  | percent => some ['%']
  | cast => some [':', ':']
  | colon => some [':']
  | pipe => some ['|']
  | comma => some [',']
  | dot => some ['.']
  | leftParen => some ['(']
  | rightParen => some [')']
  | leftBracket => some ['[']
  | rightBracket => some [']']
  | leftBrace => some ['{']
  | rightBrace => some ['}']

/-- A kind of token with a sign is no word, and not the end of the text. -/
theorem kind_of_signed (h : k.sign? = some text) : k.isWord = false ∧ k ≠ .endOfText := by
  cases k <;> cases h <;> exact ⟨rfl, by decide⟩

theorem sign_letters (h : k.sign? = some text) : ∀ d ∈ text, d.isAlpha = false := by
  have hall : text.all (fun d => !d.isAlpha) = true := by
    cases k <;> cases h <;> rfl
  intro d hd
  simpa using List.all_eq_true.mp hall d hd

/-! ## Operators -/

/-- What is read as an operator begins with the sign of its kind, and covers just that. -/
theorem operator_begins (h : operator cs = (some kind, n)) :
    ∃ c u rest, kind.sign? = some (c :: u) ∧ kind ≠ .parameter ∧ n = u.length + 1 ∧ cs = c :: (u ++ rest) := by
  unfold operator at h
  split at h <;> simp only [Prod.mk.injEq, Option.some.injEq, reduceCtorEq, false_and] at h
  all_goals
    obtain ⟨rfl, rfl⟩ := h
    exact ⟨_, _, _, rfl, by decide, rfl, rfl⟩

/-- What is no operator is refused by its first character. -/
theorem operator_none (h : operator cs = (none, n)) : n = 1 := by
  unfold operator at h
  split at h <;> simp_all

theorem operator_of_sign (h : k.sign? = some text) (hk : k ≠ .parameter) : operator text = (some k, text.length) := by
  cases k with
  | parameter => exact absurd rfl hk
  | _ => cases h <;> rfl

/-- A sign is that of one kind only: the one that is read where the sign stands alone. -/
theorem sign_injective (hj : j.sign? = some text) (hk : k.sign? = some text) : j = k := by
  have hparameter : ∀ {k : Kind}, k.sign? = some ['?'] → k = .parameter := by
    intro k hk
    refine Decidable.byContradiction fun hne => ?_
    have hoperator := operator_of_sign hk hne
    cases hoperator
  by_cases hj' : j = .parameter
  · subst hj'
    cases hj
    exact (hparameter hk).symm
  · by_cases hk' : k = .parameter
    · subst hk'
      cases hk
      exact absurd (hparameter hj) hj'
    · have hread := (operator_of_sign hj hj').symm.trans (operator_of_sign hk hk')
      exact Option.some.inj (congrArg Prod.fst hread)

end Esql.Syntax
