import Esql.Proofs.Tokens.Trivia
import Esql.Syntax.Lexeme
import Mathlib.Tactic.SplitIfs

/-!
# `Proofs.Tokens.Seam` — a token does not depend on what follows it

A text is cut at a seam and goes on in another way behind it: `u ++ v` becomes `u ++ w`, where `w` is over or
begins with a blank. A token that ends before the seam may have been found by looking at characters behind
it (an exponent needs a digit, a slash in an index pattern looks at the next character), so it is not obvious
that it stands in the new text too. It does (`lexeme_seam`), because no form of a token goes on with a blank.

## Contents
- Character classes and blanks.
- Runs, numbers, quoted forms and operators: one lemma for each that moves it over a seam.
- `lexeme_seam`.
-/

namespace Esql.Syntax

open Esql.Text (Position isBlank)

/-! ## Character classes and blanks -/

theorem isBlank_code {c : Char} (h : isBlank c = true) : c.toNat ≤ 32 ∨ 133 ≤ c.toNat := by
  simp [isBlank, Esql.Text.blankRanges] at h
  omega

theorem isAlpha_iff (c : Char) :
    c.isAlpha = true ↔ (65 ≤ c.toNat ∧ c.toNat ≤ 90) ∨ (97 ≤ c.toNat ∧ c.toNat ≤ 122) := by
  delta Char.isAlpha Char.isUpper Char.isLower
  simp only [Bool.or_eq_true, Bool.and_eq_true, decide_eq_true_eq, ge_iff_le, UInt32.le_iff_toNat_le]
  rfl

theorem isAlphanum_code {c : Char} (h : c.isAlphanum = true) : 48 ≤ c.toNat ∧ c.toNat ≤ 122 := by
  rw [Char.isAlphanum, Bool.or_eq_true, isAlpha_iff] at h
  obtain hletter | hdigit := h
  · omega
  · have hrange : 48 ≤ c.toNat ∧ c.toNat ≤ 57 := Char.isDigit_iff_toNat.mp hdigit
    omega

theorem isWordChar_blank {c : Char} (h : isBlank c = true) : isWordChar c = false := by
  have hcode := isBlank_code h
  have hscore : c ≠ '_' := by rintro rfl; exact absurd h (by decide)
  have hletter : c.isAlphanum = false := by
    refine Bool.eq_false_iff.mpr ?_
    intro hc
    have := isAlphanum_code hc
    omega
  simp [isWordChar, hletter, hscore]

theorem isDigit_blank {c : Char} (h : isBlank c = true) : c.isDigit = false := by
  have := isWordChar_blank h
  simp_all [isWordChar, Char.isAlphanum]

theorem isPatternChar_blank {c : Char} (h : isBlank c = true) : isPatternChar c = false := by
  have hc : c ≠ '*' := by rintro rfl; exact absurd h (by decide)
  simp [isPatternChar, isWordChar_blank h, hc]

theorem isSourceChar_blank {c : Char} (h : isBlank c = true) (next : Option Char) : isSourceChar c next = false := by
  simp [isSourceChar, h]

/-! ## Runs -/

/-- A text that is over or goes on with a blank. -/
def Spaced (cs : List Char) : Prop := ∀ c ∈ cs.head?, isBlank c = true

variable {u v w : List Char}

@[simp] theorem runLength_nil (p) : runLength p [] = 0 := rfl

theorem runLength_cons (p) (c : Char) (cs) : runLength p (c :: cs) = if p c then runLength p cs + 1 else 0 := by
  unfold runLength
  rw [List.takeWhile_cons]
  split <;> simp

theorem runLength_spaced {p : Char → Bool} (hp : ∀ c, isBlank c = true → p c = false) (hw : Spaced w) :
    runLength p w = 0 := by
  cases w with
  | nil => rfl
  | cons c cs => rw [runLength_cons, hp c (hw c rfl)]; rfl

theorem runLength_seam {p : Char → Bool} (hp : ∀ c, isBlank c = true → p c = false) (hw : Spaced w)
    (h : runLength p (u ++ v) ≤ u.length) : runLength p (u ++ w) = runLength p (u ++ v) := by
  induction u with
  | nil =>
      rw [List.nil_append, runLength_spaced hp hw]
      exact (Nat.le_zero.mp h).symm
  | cons c u ih =>
      simp only [List.cons_append, runLength_cons, List.length_cons] at h ⊢
      split
      · rename_i hc
        rw [if_pos hc] at h
        rw [ih (by omega)]
      · rfl

theorem isSourceChar_congr {c : Char} (h : c ≠ '/') (a b : Option Char) : isSourceChar c a = isSourceChar c b := by
  simp [isSourceChar, h]

theorem isSourceChar_slash (cs : List Char) : isSourceChar '/' cs.head? = !opensComment ('/' :: cs) := by
  have h : isBlank '/' = false := by decide
  match cs with
  | [] => simp [isSourceChar, opensComment, h]
  | c :: cs =>
      by_cases h1 : c = '/'
      · subst h1
        simp [isSourceChar, opensComment, h]
      · by_cases h2 : c = '*'
        · subst h2; simp [isSourceChar, opensComment, h]
        · simp [isSourceChar, opensComment, h, h1, h2]

theorem opensComment_spaced (hw : Spaced w) : opensComment ('/' :: w) = false := by
  match w with
  | [] => rfl
  | c :: cs =>
      have hc := hw c rfl
      have h1 : c ≠ '/' := by rintro rfl; exact absurd hc (by decide)
      have h2 : c ≠ '*' := by rintro rfl; exact absurd hc (by decide)
      simp [opensComment, h1, h2]

/-- Whether a character belongs to an index pattern does not hang on what is behind a seam. -/
theorem isSourceChar_seam (hw : Spaced w) {c : Char} (h : u = [] → opensComment (c :: v) = false) :
    isSourceChar c (u ++ w).head? = isSourceChar c (u ++ v).head? := by
  cases u with
  | cons d u => rfl
  | nil =>
      by_cases hc : c = '/'
      · subst hc
        simp [isSourceChar_slash, opensComment_spaced hw, h rfl]
      · exact isSourceChar_congr hc _ _

theorem le_sourceLength (n : Nat) (cs : List Char) : n ≤ sourceLength n cs := by
  fun_induction sourceLength n cs <;> omega

theorem opensComment_false {c : Char} (hc : c ≠ '/') (cs : List Char) : opensComment (c :: cs) = false := by
  simp [opensComment, hc]

theorem sourceLength_seam (hw : Spaced w) {k : Nat} (h : sourceLength k (u ++ v) ≤ k + u.length)
    (hslash : u.drop (sourceLength k (u ++ v) - k) = ['/'] → opensComment ('/' :: v) = false) :
    sourceLength k (u ++ w) = sourceLength k (u ++ v) := by
  induction u generalizing k with
  | nil =>
      have heq : sourceLength k w = k := by
        cases w with
        | nil => rfl
        | cons c cs => rw [sourceLength, isSourceChar_blank (hw c rfl)]; rfl
      rw [List.nil_append, heq]
      exact Nat.le_antisymm (le_sourceLength k _) h
  | cons c u ih =>
      simp only [List.cons_append, sourceLength, List.length_cons] at h hslash ⊢
      by_cases hc : isSourceChar c (u ++ v).head? = true
      · rw [if_pos hc] at h hslash ⊢
        have hseam : u = [] → opensComment (c :: v) = false := by
          rintro rfl
          by_cases hslash : c = '/'
          · subst hslash
            simpa [isSourceChar_slash] using hc
          · exact opensComment_false hslash v
        rw [isSourceChar_seam hw hseam, if_pos hc]
        have hle := le_sourceLength (k + 1) (u ++ v)
        refine ih (by omega) ?_
        intro hdrop
        refine hslash ?_
        rw [show sourceLength (k + 1) (u ++ v) - k = sourceLength (k + 1) (u ++ v) - (k + 1) + 1 by omega]
        exact hdrop
      · rw [if_neg hc] at h hslash ⊢
        have hseam : u = [] → opensComment (c :: v) = false := by
          rintro rfl
          by_cases hs : c = '/'
          · subst hs
            exact hslash (by simp)
          · exact opensComment_false hs v
        rw [isSourceChar_seam hw hseam, if_neg hc]

/-! ## Numbers -/

theorem exponentLength_spaced (hw : Spaced w) : exponentLength w = 0 := by
  match w with
  | [] | [_] => rfl
  | e :: c :: rest =>
      have he : e ≠ 'e' := by rintro rfl; exact absurd (hw _ rfl) (by decide)
      have hE : e ≠ 'E' := by rintro rfl; exact absurd (hw _ rfl) (by decide)
      simp [exponentLength, he, hE]

theorem exponentLength_single (hw : Spaced w) (e : Char) : exponentLength (e :: w) = 0 := by
  match w with
  | [] => rfl
  | c :: rest =>
      have hc := hw c rfl
      have hplus : c ≠ '+' := by rintro rfl; exact absurd hc (by decide)
      have hminus : c ≠ '-' := by rintro rfl; exact absurd hc (by decide)
      simp [exponentLength, isDigit_blank hc, hplus, hminus]

/-- An exponent is at least a letter and a digit. -/
theorem exponentLength_eq_zero {cs : List Char} (h : exponentLength cs ≤ 1) : exponentLength cs = 0 := by
  match cs with
  | [] | [_] => rfl
  | e :: c :: rest =>
      rw [exponentLength] at h ⊢
      split_ifs at h ⊢ <;> omega

/-- What an exponent needs behind its letter. -/
def startsExponent (c : Char) (rest : List Char) : Bool :=
  c.isDigit || ((c = '+' || c = '-') && rest.head?.any Char.isDigit)

theorem exponentLength_cons (e c : Char) (rest : List Char) :
    exponentLength (e :: c :: rest)
      = if (e = 'e' || e = 'E') && startsExponent c rest then 2 + runLength Char.isDigit rest else 0 := by
  rw [exponentLength, startsExponent]
  by_cases he : (e = 'e' || e = 'E') = true <;> by_cases hc : c.isDigit = true <;> simp [he, hc]

theorem startsExponent_seam (hw : Spaced w) {c : Char}
    (h : startsExponent c (u ++ v) = true → runLength Char.isDigit (u ++ v) ≤ u.length) :
    startsExponent c (u ++ w) = startsExponent c (u ++ v) := by
  cases u with
  | cons d u => rfl
  | nil =>
      have hdigit : w.head?.any Char.isDigit = false := by
        cases w with
        | nil => rfl
        | cons d w => exact isDigit_blank (hw d rfl)
      cases v with
      | nil => simp [startsExponent, hdigit]
      | cons d v =>
          by_cases hd : d.isDigit = true
          · -- A digit behind the seam would belong to the exponent.
            by_cases hc : startsExponent c (d :: v) = true
            · have := h hc
              simp [runLength_cons, hd] at this
            · simp_all [startsExponent]
          · simp_all [startsExponent]

theorem exponentLength_seam (hw : Spaced w) (h : exponentLength (u ++ v) ≤ u.length) :
    exponentLength (u ++ w) = exponentLength (u ++ v) := by
  match u with
  | [] =>
      rw [List.nil_append, exponentLength_spaced hw]
      exact (Nat.le_zero.mp h).symm
  | [e] =>
      rw [List.singleton_append, exponentLength_single hw]
      exact (exponentLength_eq_zero h).symm
  | e :: c :: u =>
      simp only [List.cons_append, exponentLength_cons, List.length_cons] at h ⊢
      by_cases he : (e = 'e' || e = 'E') = true
      · simp only [he, Bool.true_and] at h ⊢
        have hrun : startsExponent c (u ++ v) = true → runLength Char.isDigit (u ++ v) ≤ u.length := by
          intro hc
          rw [if_pos hc] at h
          omega
        rw [startsExponent_seam hw hrun]
        split
        · rename_i hc
          rw [runLength_seam (fun _ => isDigit_blank) hw (hrun hc)]
        · rfl
      · simp [he]

theorem number_point {cs rest : List Char} (h : cs.drop (runLength Char.isDigit cs) = '.' :: rest) :
    number cs = (.decimal, runLength Char.isDigit cs + 1 + runLength Char.isDigit rest
      + exponentLength (rest.drop (runLength Char.isDigit rest))) := by
  unfold number
  simp only [h]

theorem number_whole {cs : List Char} (h : (cs.drop (runLength Char.isDigit cs)).head? ≠ some '.') :
    number cs = (if exponentLength (cs.drop (runLength Char.isDigit cs)) = 0 then .integer else .decimal,
      runLength Char.isDigit cs + exponentLength (cs.drop (runLength Char.isDigit cs))) := by
  unfold number
  dsimp only
  split
  · rename_i heq
    rw [heq] at h
    exact absurd rfl h
  · rfl

theorem head?_spaced_ne (hw : Spaced w) {c : Char} (hc : isBlank c = false) : w.head? ≠ some c := by
  intro h
  rw [hw c h] at hc
  cases hc

theorem runLength_le_number (cs : List Char) : runLength Char.isDigit cs ≤ (number cs).2 := by
  by_cases h : (cs.drop (runLength Char.isDigit cs)).head? = some '.'
  · obtain ⟨rest, hrest⟩ := List.head?_eq_some_iff.mp h
    rw [number_point hrest]
    dsimp only
    omega
  · rw [number_whole h]
    exact Nat.le_add_right _ _

theorem number_seam (hw : Spaced w) (h : (number (u ++ v)).2 ≤ u.length) : number (u ++ w) = number (u ++ v) := by
  have hle := Nat.le_trans (runLength_le_number (u ++ v)) h
  have hrun := runLength_seam (fun _ => isDigit_blank) hw hle
  have hv : (u ++ v).drop (runLength Char.isDigit (u ++ v)) = u.drop (runLength Char.isDigit (u ++ v)) ++ v :=
    List.drop_append_of_le_length hle
  have hw' : (u ++ w).drop (runLength Char.isDigit (u ++ w)) = u.drop (runLength Char.isDigit (u ++ v)) ++ w := by
    rw [hrun]
    exact List.drop_append_of_le_length hle
  generalize hrest : u.drop (runLength Char.isDigit (u ++ v)) = rest at hv hw'
  have hlen : rest.length = u.length - runLength Char.isDigit (u ++ v) := by rw [← hrest, List.length_drop]
  by_cases hpoint : (rest ++ v).head? = some '.'
  · obtain ⟨tail, htail⟩ := List.head?_eq_some_iff.mp hpoint
    cases rest with
    | nil =>
        rw [number_point (hv.trans htail)] at h
        dsimp only [List.length_nil] at h hlen
        omega
    | cons c rest =>
        obtain ⟨rfl, rfl⟩ := List.cons.inj htail
        rw [List.cons_append] at hv hw'
        rw [number_point hv] at h ⊢
        rw [number_point hw', hrun]
        dsimp only [List.append_eq] at h ⊢
        rw [List.length_cons] at hlen
        have hfraction : runLength Char.isDigit (rest ++ v) ≤ rest.length := by omega
        rw [List.drop_append_of_le_length hfraction] at h ⊢
        rw [runLength_seam (fun _ => isDigit_blank) hw hfraction, List.drop_append_of_le_length hfraction,
          exponentLength_seam (v := v) hw (by rw [List.length_drop]; omega)]
  · have hpoint' : (rest ++ w).head? ≠ some '.' := by
      cases rest with
      | nil => exact head?_spaced_ne hw (by decide)
      | cons c rest => exact hpoint
    have hnum : number (u ++ v) = _ := number_whole (by rw [hv]; exact hpoint)
    have hnum' : number (u ++ w) = _ := number_whole (by rw [hw']; exact hpoint')
    rw [hnum, hv] at h
    dsimp only at h
    rw [hnum', hnum, hw', hv, hrun, exponentLength_seam (v := v) hw (by omega)]

/-! ## Quoted forms -/

theorem quotedLine_some {n m : Nat} {cs : List Char} {k : Kind} (h : quotedLine n cs = (some k, m)) :
    k = .string ∧ n < m ∧ m ≤ n + cs.length := by
  fun_induction quotedLine n cs <;> grind

theorem quotedText_some {n m : Nat} {cs : List Char} {k : Kind} (h : quotedText n cs = (some k, m)) :
    k = .string ∧ n + 2 < m ∧ m ≤ n + cs.length := by
  fun_induction quotedText n cs <;> grind

theorem quotedName_some {n m : Nat} {cs : List Char} {k : Kind} (h : quotedName n cs = (some k, m)) :
    k = .quotedIdentifier ∧ n < m ∧ m ≤ n + cs.length := by
  fun_induction quotedName n cs <;> grind

theorem quotedLine_char {c : Char} (hquote : c ≠ '"') (hslash : c ≠ '\\') (n : Nat) (cs : List Char) :
    quotedLine n (c :: cs) = if c = '\n' || c = '\r' then (none, n) else quotedLine (n + 1) cs := by
  rw [quotedLine] <;> simp_all

theorem quotedLine_seam {k n : Nat} {kind : Kind} (h : quotedLine k (u ++ v) = (some kind, n))
    (hn : n ≤ k + u.length) : quotedLine k (u ++ w) = (some kind, n) := by
  have hlt := (quotedLine_some h).2.1
  generalize hcs : u ++ v = cs at h
  fun_induction quotedLine k cs generalizing u with
  | case1 k rest =>
      cases u with
      | nil => simp only [List.length_nil] at hn; omega
      | cons a u =>
          simp only [List.cons_append, List.cons.injEq] at hcs
          obtain ⟨rfl, -⟩ := hcs
          simpa [quotedLine] using h
  | case2 k c rest hc => cases h
  | case3 k c rest hc ih =>
      have hlt' := (quotedLine_some h).2.1
      match u with
      | [] | [_] => simp at hn; omega
      | a :: b :: u =>
          simp only [List.cons_append, List.cons.injEq] at hcs
          obtain ⟨rfl, rfl, hcs⟩ := hcs
          rw [List.cons_append, List.cons_append, quotedLine, if_neg hc]
          exact ih (by simp only [List.length_cons] at hn; omega) hlt' hcs h
  | case4 k => cases h
  | case5 k c rest hquote hescape hend hc => cases h
  | case6 k c rest hquote hescape hend hc ih =>
      have hlt' := (quotedLine_some h).2.1
      cases u with
      | nil => simp only [List.length_nil] at hn; omega
      | cons a u =>
          simp only [List.cons_append, List.cons.injEq] at hcs
          obtain ⟨rfl, hrest⟩ := hcs
          have hslash : a ≠ '\\' := by
            rintro rfl
            cases rest with
            | nil => exact hend rfl rfl
            | cons d rest => exact hescape d rest rfl rfl
          rw [List.cons_append, quotedLine_char hquote hslash, if_neg hc]
          exact ih (by simp only [List.length_cons] at hn; omega) hlt' hrest h
  | case7 k => cases h

theorem quotedText_close {cs : List Char} (k : Nat) :
    quotedText k ('"' :: '"' :: '"' :: cs) = (some .string, k + 3) := by
  rw [quotedText]

theorem quotedText_cons {a b c : Char} (h : ¬ (a = '"' ∧ b = '"' ∧ c = '"')) (k : Nat) (cs : List Char) :
    quotedText k (a :: b :: c :: cs) = quotedText (k + 1) (b :: c :: cs) := by
  rw [quotedText]
  simp_all

theorem quotedText_seam {k n : Nat} {kind : Kind} (h : quotedText k (u ++ v) = (some kind, n))
    (hn : n ≤ k + u.length) : quotedText k (u ++ w) = (some kind, n) := by
  have hlt := (quotedText_some h).2.1
  induction u generalizing k with
  | nil => simp only [List.length_nil] at hn; omega
  | cons a u ih =>
      match u with
      | [] | [_] => simp at hn; omega
      | b :: c :: u =>
          simp only [List.cons_append] at h ih ⊢
          by_cases hquotes : a = '"' ∧ b = '"' ∧ c = '"'
          · obtain ⟨rfl, rfl, rfl⟩ := hquotes
            rw [quotedText_close] at h ⊢
            exact h
          · rw [quotedText_cons hquotes] at h ⊢
            exact ih h (by simp only [List.length_cons] at hn ⊢; omega) (quotedText_some h).2.1

/-- A quote that is not doubled ends a quoted identifier. -/
theorem quotedName_close {cs : List Char} (h : cs.head? ≠ some '\x60') (k : Nat) :
    quotedName k ('\x60' :: cs) = (some .quotedIdentifier, k + 1) := by
  cases cs with
  | nil => rfl
  | cons c cs => rw [quotedName]; simp_all

theorem quotedName_char {c : Char} (hquote : c ≠ '\x60') (k : Nat) (cs : List Char) :
    quotedName k (c :: cs) = quotedName (k + 1) cs := by
  rw [quotedName] <;> simp_all

theorem quotedName_seam (hw : Spaced w) {k n : Nat} {kind : Kind} (h : quotedName k (u ++ v) = (some kind, n))
    (hn : n ≤ k + u.length) : quotedName k (u ++ w) = (some kind, n) := by
  have hlt := (quotedName_some h).2.1
  generalize hcs : u ++ v = cs at h
  fun_induction quotedName k cs generalizing u with
  | case1 k rest ih =>
      have hlt' := (quotedName_some h).2.1
      match u with
      | [] | [_] => simp at hn; omega
      | a :: b :: u =>
          simp only [List.cons_append, List.cons.injEq] at hcs
          obtain ⟨rfl, rfl, hcs⟩ := hcs
          rw [List.cons_append, List.cons_append, quotedName]
          exact ih (by simp only [List.length_cons] at hn; omega) hlt' hcs h
  | case2 k rest hdouble =>
      match u with
      | [] => simp at hn; omega
      | [a] =>
          simp only [List.cons_append, List.cons.injEq] at hcs
          obtain ⟨rfl, -⟩ := hcs
          rw [List.singleton_append, quotedName_close (head?_spaced_ne hw (by decide)), h]
      | a :: b :: u =>
          simp only [List.cons_append, List.cons.injEq] at hcs
          obtain ⟨rfl, hrest⟩ := hcs
          have hb : b ≠ '\x60' := by
            rintro rfl
            exact hdouble (u ++ v) hrest.symm
          rw [List.cons_append, List.cons_append, quotedName_close (by simpa using hb), h]
  | case3 k c rest hdouble hquote ih =>
      have hlt' := (quotedName_some h).2.1
      cases u with
      | nil => simp only [List.length_nil] at hn; omega
      | cons a u =>
          simp only [List.cons_append, List.cons.injEq] at hcs
          obtain ⟨rfl, hrest⟩ := hcs
          have ha : a ≠ '\x60' := by
            rintro rfl
            exact hquote rfl
          rw [List.cons_append, quotedName_char ha]
          exact ih (by simp only [List.length_cons] at hn; omega) hlt' hrest h
  | case4 k => cases h

/-! ## Operators and parameters -/

/-- The operator of two characters, of which the second may be missing. -/
def pairOperator : Char → Option Char → Option Kind
  | '=', some '=' => some .equal
  | '!', some '=' => some .notEqual
  | '<', some '=' => some .lessEqual
  | '>', some '=' => some .greaterEqual
  | '=', some '~' => some .equalAnyCase
  | ':', some ':' => some .cast
  | _, _ => none

theorem operator_pair {c : Char} {cs : List Char} {kind : Kind} (h : pairOperator c cs.head? = some kind) :
    operator (c :: cs) = (some kind, 2) := by
  match cs with
  | [] => simp [pairOperator] at h
  | d :: cs =>
      unfold pairOperator at h
      split at h <;> simp_all [operator]

theorem operator_single {c : Char} {cs : List Char} (h : pairOperator c cs.head? = none) :
    operator (c :: cs) = operator [c] := by
  match cs with
  | [] => rfl
  | d :: cs =>
      unfold operator
      split <;> simp_all [pairOperator]

theorem pairOperator_spaced (hw : Spaced w) (c : Char) : pairOperator c w.head? = none := by
  cases w with
  | nil => simp [pairOperator]
  | cons d w =>
      have hd := hw d rfl
      unfold pairOperator
      split <;> simp_all <;> revert hd <;> decide

theorem operator_seam (hw : Spaced w) {c : Char} {n : Nat} {kind : Kind} (h : operator (c :: (u ++ v)) = (some kind, n))
    (hn : n ≤ 1 + u.length) : operator (c :: (u ++ w)) = (some kind, n) := by
  cases hpair : pairOperator c (u ++ v).head? with
  | some k =>
      cases u with
      | nil =>
          rw [operator_pair hpair] at h
          simp only [Prod.mk.injEq, List.length_nil] at h hn
          omega
      | cons d u =>
          rw [operator_pair hpair] at h
          have hpair' : pairOperator c (d :: u ++ w).head? = some k := hpair
          rw [operator_pair hpair', h]
  | none =>
      rw [operator_single hpair] at h
      rw [operator_single, h]
      cases u with
      | nil => exact pairOperator_spaced hw c
      | cons d u => exact hpair

theorem parameterLength_plain {cs : List Char} (h : cs.head? ≠ some '?') :
    parameterLength cs = 1 + runLength isWordChar cs := by
  unfold parameterLength
  split
  · exact absurd rfl h
  · rfl

theorem parameterLength_seam (hw : Spaced w) (h : parameterLength (u ++ v) ≤ 1 + u.length) :
    parameterLength (u ++ w) = parameterLength (u ++ v) := by
  by_cases hhead : (u ++ v).head? = some '?'
  · cases u with
    | nil =>
        obtain ⟨v, rfl⟩ := List.head?_eq_some_iff.mp hhead
        simp only [List.nil_append, parameterLength, List.length_nil] at h
        omega
    | cons d u =>
        obtain rfl : d = '?' := by simpa using hhead
        simp only [List.cons_append, parameterLength, List.length_cons] at h ⊢
        rw [runLength_seam (v := v) (fun _ => isWordChar_blank) hw (by omega)]
  · have hhead' : (u ++ w).head? ≠ some '?' := by
      cases u with
      | nil => exact head?_spaced_ne hw (by decide)
      | cons d u => exact hhead
    rw [parameterLength_plain hhead] at h ⊢
    rw [parameterLength_plain hhead', runLength_seam (v := v) (fun _ => isWordChar_blank) hw (by omega)]

/-! ## All forms -/

theorem any_isDigit_spaced (hw : Spaced w) : w.head?.any Char.isDigit = false := by
  cases w with
  | nil => rfl
  | cons d w => exact isDigit_blank (hw d rfl)

/-- A point behind which a digit stands is longer than a point. -/
theorem two_le_number {cs : List Char} (h : cs.head?.any Char.isDigit = true) : 2 ≤ (number ('.' :: cs)).2 := by
  cases cs with
  | nil => cases h
  | cons d cs =>
      have hpoint : runLength Char.isDigit ('.' :: d :: cs) = 0 := by rw [runLength_cons]; rfl
      have hd : d.isDigit = true := h
      have hdrop : ('.' :: d :: cs).drop (runLength Char.isDigit ('.' :: d :: cs)) = '.' :: d :: cs := by
        rw [hpoint]
        rfl
      rw [number_point hdrop, hpoint, runLength_cons, if_pos hd]
      dsimp only
      omega

/-- A number begins with a digit, or with a point and a digit. -/
def startsNumber (c : Char) (rest : List Char) : Bool :=
  c.isDigit || (c = '.' && rest.head?.any Char.isDigit)

theorem startsNumber_seam (hw : Spaced w) {c : Char}
    (h : startsNumber c (u ++ v) = true → (number (c :: (u ++ v))).2 ≤ 1 + u.length) :
    startsNumber c (u ++ w) = startsNumber c (u ++ v) := by
  cases u with
  | cons d u => rfl
  | nil =>
      by_cases hpoint : c = '.'
      · subst hpoint
        have hv : v.head?.any Char.isDigit = false := by
          refine Bool.eq_false_iff.mpr ?_
          intro hdigit
          have hlong := two_le_number hdigit
          have := h (by simp [startsNumber, hdigit])
          rw [List.nil_append, List.length_nil] at this
          omega
        simp [startsNumber, hv, any_isDigit_spaced hw]
      · simp [startsNumber, hpoint]

/-- The string that begins with a quote before `rest`. -/
def stringForm (rest : List Char) : Option Kind × Nat :=
  match rest with
  | '"' :: '"' :: body => quotedText 3 body
  | body => quotedLine 1 body

theorem stringForm_text (cs : List Char) : stringForm ('"' :: '"' :: cs) = quotedText 3 cs := rfl

theorem stringForm_line {cs : List Char} (h : ∀ body, cs ≠ '"' :: '"' :: body) : stringForm cs = quotedLine 1 cs := by
  unfold stringForm
  split
  · exact absurd rfl (h _)
  · rfl

theorem stringForm_seam (hw : Spaced w) {kind : Kind} {n : Nat} (h : stringForm (u ++ v) = (some kind, n))
    (hn : n ≤ 1 + u.length) : stringForm (u ++ w) = (some kind, n) := by
  by_cases htext : ∃ body, u ++ v = '"' :: '"' :: body
  · obtain ⟨body, hbody⟩ := htext
    rw [hbody, stringForm_text] at h
    have hlong := (quotedText_some h).2.1
    match u with
    | [] | [_] => simp at hn; omega
    | a :: b :: u =>
        simp only [List.cons_append, List.cons.injEq] at hbody
        obtain ⟨rfl, rfl, rfl⟩ := hbody
        rw [List.cons_append, List.cons_append, stringForm_text]
        exact quotedText_seam h (by simp only [List.length_cons] at hn; omega)
  · rw [stringForm_line (fun body hbody => htext ⟨body, hbody⟩)] at h
    have hlong := (quotedLine_some h).2.1
    rw [stringForm_line, quotedLine_seam h hn]
    intro body hbody
    match u with
    | [] => simp at hn; omega
    | [a] =>
        simp only [List.cons_append, List.nil_append, List.cons.injEq] at hbody
        exact head?_spaced_ne (c := '"') hw (by decide) (by rw [hbody.2]; rfl)
    | a :: b :: u =>
        simp only [List.cons_append, List.cons.injEq] at hbody
        obtain ⟨rfl, rfl, -⟩ := hbody
        exact htext ⟨_, rfl⟩

theorem commonLexeme_seam (hw : Spaced w) {c : Char} {kind : Kind} {n : Nat}
    (h : commonLexeme c (u ++ v) = (some kind, n)) (hn : n ≤ 1 + u.length) :
    commonLexeme c (u ++ w) = (some kind, n) := by
  unfold commonLexeme at h ⊢
  by_cases hletter : c.isAlpha = true
  · rw [if_pos hletter] at h ⊢
    obtain ⟨hkind, rfl⟩ := Prod.mk.inj h
    rw [runLength_seam (v := v) (fun _ => isWordChar_blank) hw (by omega), hkind]
  rw [if_neg hletter] at h ⊢
  by_cases hscore : (c = '_' || c = '@') = true
  · rw [if_pos hscore] at h ⊢
    obtain ⟨hkind, rfl⟩ := Prod.mk.inj h
    dsimp only
    rw [runLength_seam (v := v) (fun _ => isWordChar_blank) hw (by omega), hkind]
  rw [if_neg hscore] at h ⊢
  change (if startsNumber c (u ++ v) = true then _ else _) = _ at h
  change (if startsNumber c (u ++ w) = true then _ else _) = _
  have hstart : startsNumber c (u ++ w) = startsNumber c (u ++ v) := by
    refine startsNumber_seam hw ?_
    intro hnumber
    rw [if_pos hnumber] at h
    obtain ⟨-, rfl⟩ := Prod.mk.inj h
    exact hn
  rw [hstart]
  by_cases hnumber : startsNumber c (u ++ v) = true
  · rw [if_pos hnumber] at h ⊢
    have hend : (number (c :: (u ++ v))).2 = n := congrArg Prod.snd h
    have hsame : number (c :: u ++ w) = number (c :: u ++ v) := by
      refine number_seam hw ?_
      rw [List.cons_append, hend, List.length_cons]
      omega
    rw [List.cons_append, List.cons_append] at hsame
    rw [hsame, h]
  rw [if_neg hnumber] at h ⊢
  by_cases hquote : c = '"'
  · rw [if_pos hquote] at h ⊢
    exact stringForm_seam hw h hn
  rw [if_neg hquote] at h ⊢
  by_cases hname : c = backquote
  · rw [if_pos hname] at h ⊢
    exact quotedName_seam hw h hn
  rw [if_neg hname] at h ⊢
  by_cases hparameter : c = '?'
  · rw [if_pos hparameter] at h ⊢
    obtain ⟨hkind, rfl⟩ := Prod.mk.inj h
    rw [parameterLength_seam (v := v) hw hn, hkind]
  rw [if_neg hparameter] at h ⊢
  exact operator_seam hw h hn

/-- **A token does not depend on what follows it.** A token that ends at a seam or before it stands there
whatever blank text is behind the seam, unless the seam divides what opens a comment. -/
theorem lexeme_seam (hw : Spaced w) {mode : Mode} {c : Char} {kind : Kind} {n : Nat}
    (h : lexeme mode c (u ++ v) = (some kind, n)) (hn : n ≤ 1 + u.length)
    (hopen : opensComment (c :: (u ++ v)) = false)
    (hslash : u.drop (n - 1) = ['/'] → opensComment ('/' :: v) = false) :
    lexeme mode c (u ++ w) = (some kind, n) := by
  cases mode with
  | expression => exact commonLexeme_seam hw h hn
  | pattern =>
      unfold lexeme at h ⊢
      by_cases hstart : startsPattern c = true
      · simp only [hstart, if_true] at h ⊢
        obtain ⟨hkind, rfl⟩ := Prod.mk.inj h
        rw [runLength_seam (v := v) (fun _ => isPatternChar_blank) hw (by omega), hkind]
      · simp only [hstart] at h ⊢
        exact commonLexeme_seam hw h hn
  | source =>
      unfold lexeme at h ⊢
      have hseam : isSourceChar c (u ++ w).head? = isSourceChar c (u ++ v).head? := by
        refine isSourceChar_seam hw ?_
        rintro rfl
        exact hopen
      dsimp only at h ⊢
      rw [hseam]
      by_cases hstart : isSourceChar c (u ++ v).head? = true
      · rw [if_pos hstart] at h ⊢
        obtain ⟨hkind, rfl⟩ := Prod.mk.inj h
        rw [sourceLength_seam (v := v) hw hn hslash, hkind]
      · rw [if_neg hstart] at h ⊢
        exact commonLexeme_seam hw h hn

end Esql.Syntax
