import Esql.Proofs.Tokens.Seam
import Esql.Proofs.Tokens.Signs
import Mathlib.Logic.Basic

/-!
# `Proofs.Tokens.Letters` — capitals make no difference to the form of a token

A text written in small letters is cut into tokens where the text itself is (`lexeme_lower`): no class of
characters tells a capital from a small letter, no operator and no quote is a letter, and the mark of an
exponent may be either. Only ASCII letters have a case here.

## Contents
- The small letter of a character, and the classes of characters.
- Runs, numbers, quoted forms, operators: one lemma for each.
- `lexeme_lower`.
-/

namespace Esql.Syntax

open Esql.Text (isBlank blankRanges)

/-! ## Characters -/

/-- Only the capitals have another character as their small letter, 32 code points behind them. -/
theorem toLower_cases (c : Char) :
    c.toLower = c ∨ 65 ≤ c.toNat ∧ c.toNat ≤ 90 ∧ c.toLower.toNat = c.toNat + 32 := by
  unfold Char.toLower
  split
  · rename_i h
    obtain ⟨hlow, hhigh⟩ := h
    rw [ge_iff_le, UInt32.le_iff_toNat_le] at hlow
    rw [UInt32.le_iff_toNat_le] at hhigh
    have hsum : (c.val + ('a'.val - 'A'.val)).toNat = c.val.toNat + 32 := by
      rw [UInt32.toNat_add]
      show (c.val.toNat + 32) % 2 ^ 32 = _
      have : c.val.toNat ≤ 90 := hhigh
      omega
    exact .inr ⟨hlow, hhigh, hsum⟩
  · exact .inl rfl

theorem lower_of_not_letter {c : Char} (h : c.isAlpha = false) : c.toLower = c := by
  obtain hsame | ⟨hlow, hhigh, -⟩ := toLower_cases c
  · exact hsame
  · rw [(isAlpha_iff c).mpr (by omega)] at h
    cases h

theorem isAlpha_lower (c : Char) : c.toLower.isAlpha = c.isAlpha := by
  obtain h | ⟨hlow, hhigh, hcode⟩ := toLower_cases c
  · rw [h]
  · rw [(isAlpha_iff c).mpr (by omega), (isAlpha_iff _).mpr (by omega)]

/-- A character that is no letter is the small letter of itself alone. -/
theorem lower_eq_iff {c d : Char} (hd : d.isAlpha = false) : c.toLower = d ↔ c = d := by
  cases hc : c.isAlpha with
  | false => rw [lower_of_not_letter hc]
  | true =>
      have hsmall := (isAlpha_lower c).trans hc
      constructor
      · rintro rfl
        rw [hsmall] at hd
        cases hd
      · rintro rfl
        rw [hc] at hd
        cases hd

theorem some_lower_iff {next : Option Char} {d : Char} (hd : d.isAlpha = false) :
    next.map Char.toLower = some d ↔ next = some d := by
  cases next <;> simp [lower_eq_iff hd]

/-! ## Classes of characters -/

theorem isBlank_letter {c : Char} (h : c.isAlpha = true) : isBlank c = false := by
  have hcode := (isAlpha_iff c).mp h
  simp only [isBlank, blankRanges, List.any_cons, List.any_nil, Bool.or_false, Bool.or_eq_false_iff,
    Bool.and_eq_false_iff, decide_eq_false_iff_not]
  omega

theorem isDigit_letter {c : Char} (h : c.isAlpha = true) : c.isDigit = false := by
  have hcode := (isAlpha_iff c).mp h
  refine Bool.eq_false_iff.mpr fun hdigit => ?_
  have hrange : 48 ≤ c.toNat ∧ c.toNat ≤ 57 := Char.isDigit_iff_toNat.mp hdigit
  omega

/-- A class that holds no letter does not tell a capital from its small letter. -/
theorem class_lower {p : Char → Bool} (hp : ∀ c, c.isAlpha = true → p c = false) (c : Char) :
    p c.toLower = p c := by
  cases hc : c.isAlpha with
  | false => rw [lower_of_not_letter hc]
  | true => rw [hp c hc, hp c.toLower ((isAlpha_lower c).trans hc)]

theorem isBlank_lower (c : Char) : isBlank c.toLower = isBlank c := class_lower (fun _ => isBlank_letter) c

theorem isDigit_lower (c : Char) : c.toLower.isDigit = c.isDigit := class_lower (fun _ => isDigit_letter) c

theorem isWordChar_lower (c : Char) : isWordChar c.toLower = isWordChar c := by
  simp (disch := decide) only [isWordChar, Char.isAlphanum, isAlpha_lower, isDigit_lower, lower_eq_iff]

theorem isPatternChar_lower (c : Char) : isPatternChar c.toLower = isPatternChar c := by
  simp (disch := decide) only [isPatternChar, isWordChar_lower, lower_eq_iff]

theorem startsPattern_lower (c : Char) : startsPattern c.toLower = startsPattern c := by
  simp (disch := decide) only [startsPattern, isAlpha_lower, lower_eq_iff]

theorem isSourceChar_lower (c : Char) (next : Option Char) :
    isSourceChar c.toLower (next.map Char.toLower) = isSourceChar c next := by
  have hother : [':', '"', '=', '|', ',', '[', ']'].contains c.toLower
      = [':', '"', '=', '|', ',', '[', ']'].contains c := by
    rw [Bool.eq_iff_iff]
    simp (disch := decide) only [List.contains_iff_mem, List.mem_cons, List.not_mem_nil, or_false, lower_eq_iff]
  unfold isSourceChar
  rw [isBlank_lower, hother]
  simp (disch := decide) only [lower_eq_iff, some_lower_iff]

/-! ## Runs -/

theorem runLength_lower {p : Char → Bool} (hp : ∀ c, p c.toLower = p c) (cs : List Char) :
    runLength p (cs.map Char.toLower) = runLength p cs := by
  induction cs with
  | nil => rfl
  | cons c cs ih => rw [List.map_cons, runLength_cons, runLength_cons, hp, ih]

theorem sourceLength_lower (n : Nat) (cs : List Char) :
    sourceLength n (cs.map Char.toLower) = sourceLength n cs := by
  induction cs generalizing n with
  | nil => rfl
  | cons c cs ih => rw [List.map_cons, sourceLength, sourceLength, List.head?_map, isSourceChar_lower, ih]

/-! ## Numbers -/

/-- The mark of an exponent may be a capital or a small letter. -/
theorem isExponentMark_lower (e : Char) : (e.toLower = 'e' || e.toLower = 'E') = (e = 'e' || e = 'E') := by
  have hcode : ∀ c d : Char, c = d ↔ c.toNat = d.toNat := fun c d => Char.toNat_inj.symm
  obtain h | ⟨hlow, hhigh, hsmall⟩ := toLower_cases e
  · rw [h]
  · rw [Bool.eq_iff_iff]
    simp only [Bool.or_eq_true, decide_eq_true_eq, hcode, hsmall]
    show e.toNat + 32 = 101 ∨ e.toNat + 32 = 69 ↔ e.toNat = 101 ∨ e.toNat = 69
    omega

theorem exponentLength_lower (cs : List Char) : exponentLength (cs.map Char.toLower) = exponentLength cs := by
  match cs with
  | [] | [_] => rfl
  | e :: c :: rest =>
      have hstart : startsExponent c.toLower (rest.map Char.toLower) = startsExponent c rest := by
        simp (disch := decide) only [startsExponent, isDigit_lower, List.head?_map, Option.any_map, lower_eq_iff]
      rw [List.map_cons, List.map_cons, exponentLength_cons, exponentLength_cons, isExponentMark_lower, hstart,
        runLength_lower isDigit_lower]

theorem number_lower (cs : List Char) : number (cs.map Char.toLower) = number cs := by
  have hdrop : (cs.map Char.toLower).drop (runLength Char.isDigit (cs.map Char.toLower))
      = (cs.drop (runLength Char.isDigit cs)).map Char.toLower := by
    rw [runLength_lower isDigit_lower, List.map_drop]
  by_cases hpoint : (cs.drop (runLength Char.isDigit cs)).head? = some '.'
  · obtain ⟨rest, hrest⟩ := List.head?_eq_some_iff.mp hpoint
    have hrest' := hdrop
    rw [hrest, List.map_cons] at hrest'
    rw [number_point hrest, number_point hrest']
    simp only [runLength_lower isDigit_lower, ← List.map_drop, exponentLength_lower]
  · have hpoint' : ((cs.drop (runLength Char.isDigit cs)).map Char.toLower).head? ≠ some '.' := by
      rw [List.head?_map, ne_eq, some_lower_iff (by decide)]
      exact hpoint
    rw [← hdrop] at hpoint'
    rw [number_whole hpoint, number_whole hpoint', hdrop, runLength_lower isDigit_lower, exponentLength_lower]

theorem startsNumber_lower (c : Char) (rest : List Char) :
    startsNumber c.toLower (rest.map Char.toLower) = startsNumber c rest := by
  simp (disch := decide) only [startsNumber, isDigit_lower, List.head?_map, Option.any_map, lower_eq_iff]

/-! ## Quoted forms -/

theorem quotedLine_lower (n : Nat) (cs : List Char) :
    quotedLine n (cs.map Char.toLower) = quotedLine n cs := by
  have hline : ∀ c : Char, (c.toLower = '\n' || c.toLower = '\r') = (c = '\n' || c = '\r') := by
    intro c
    simp (disch := decide) only [lower_eq_iff]
  -- A character that is neither a quote nor a backslash is read by itself.
  have hchar : ∀ {c : Char} {rest : List Char}, c ≠ '"' → (∀ d ds, c = '\\' → rest = d :: ds → False) →
      (c = '\\' → rest = [] → False) → ∀ n, quotedLine n ((c :: rest).map Char.toLower)
        = if c = '\n' || c = '\r' then (none, n) else quotedLine (n + 1) (rest.map Char.toLower) := by
    intro c rest hquote hescape hend n
    have hslash : c ≠ '\\' := by
      rintro rfl
      cases rest with
      | nil => exact hend rfl rfl
      | cons d rest => exact hescape d rest rfl rfl
    rw [List.map_cons, quotedLine_char ((lower_eq_iff (by decide)).not.mpr hquote)
      ((lower_eq_iff (by decide)).not.mpr hslash), hline]
  fun_induction quotedLine n cs with
  | case1 | case4 | case7 => rfl
  | case2 n c rest hc =>
      rw [← hline] at hc
      exact if_pos hc
  | case3 n c rest hc ih =>
      rw [← hline] at hc
      rw [← ih]
      exact if_neg hc
  | case5 n c rest hquote hescape hend hc => rw [hchar hquote hescape hend, if_pos hc]
  | case6 n c rest hquote hescape hend hc ih => rw [hchar hquote hescape hend, if_neg hc, ih]

theorem quotedText_lower (n : Nat) (cs : List Char) :
    quotedText n (cs.map Char.toLower) = quotedText n cs := by
  induction cs generalizing n with
  | nil => rfl
  | cons a cs ih =>
      match cs with
      | [] | [_] => simp [quotedText]
      | b :: c :: cs =>
          simp only [List.map_cons] at ih ⊢
          by_cases hquotes : a = '"' ∧ b = '"' ∧ c = '"'
          · obtain ⟨rfl, rfl, rfl⟩ := hquotes
            rfl
          · rw [quotedText_cons hquotes, quotedText_cons, ih]
            simpa (disch := decide) only [lower_eq_iff] using hquotes

theorem quotedName_lower (n : Nat) (cs : List Char) :
    quotedName n (cs.map Char.toLower) = quotedName n cs := by
  fun_induction quotedName n cs with
  | case1 n rest ih => exact ih
  | case2 n rest hdouble =>
      refine quotedName_close ?_ n
      rw [List.head?_map, ne_eq, some_lower_iff (by decide)]
      intro hhead
      obtain ⟨body, hbody⟩ := List.head?_eq_some_iff.mp hhead
      exact hdouble body hbody
  | case3 n c rest hdouble hquote ih =>
      rw [List.map_cons, quotedName_char ((lower_eq_iff (by decide)).not.mpr hquote), ih]
  | case4 n => rfl

theorem stringForm_lower (cs : List Char) : stringForm (cs.map Char.toLower) = stringForm cs := by
  by_cases htext : ∃ body, cs = '"' :: '"' :: body
  · obtain ⟨body, rfl⟩ := htext
    exact quotedText_lower 3 body
  · rw [stringForm_line fun body hbody => htext ⟨body, hbody⟩, stringForm_line, quotedLine_lower]
    intro body hbody
    match cs with
    | [] | [_] => cases congrArg List.length hbody
    | a :: b :: cs =>
        simp only [List.map_cons, List.cons.injEq] at hbody
        obtain ⟨ha, hb, -⟩ := hbody
        rw [lower_eq_iff (by decide)] at ha hb
        exact htext ⟨cs, by rw [ha, hb]⟩

/-! ## Operators and parameters -/

theorem pairOperator_letter {d : Char} (h : d.isAlpha = true) (c : Char) : pairOperator c (some d) = none := by
  unfold pairOperator
  split <;> simp_all +decide

theorem operator_letter {c : Char} (h : c.isAlpha = true) (cs : List Char) :
    operator (c :: cs) = (none, 1) := by
  rcases hform : operator (c :: cs) with ⟨_ | kind, n⟩
  · rw [operator_none hform]
  · obtain ⟨d, u, rest, hsign, -, -, hcs⟩ := operator_begins hform
    obtain ⟨rfl, -⟩ := List.cons.inj hcs
    rw [sign_letters hsign c (.head _)] at h
    cases h

theorem pairOperator_lower (c : Char) (next : Option Char) :
    pairOperator c (next.map Char.toLower) = pairOperator c next := by
  cases next with
  | none => rfl
  | some d =>
      rw [Option.map_some]
      cases hd : d.isAlpha with
      | false => rw [lower_of_not_letter hd]
      | true => rw [pairOperator_letter hd, pairOperator_letter ((isAlpha_lower d).trans hd)]

theorem operator_lower (c : Char) (cs : List Char) :
    operator (c.toLower :: cs.map Char.toLower) = operator (c :: cs) := by
  cases hc : c.isAlpha with
  | true => rw [operator_letter hc, operator_letter ((isAlpha_lower c).trans hc)]
  | false =>
      have hpair := pairOperator_lower c cs.head?
      rw [← List.head?_map] at hpair
      rw [lower_of_not_letter hc]
      cases hnext : pairOperator c cs.head? with
      | none => rw [operator_single hnext, operator_single (hpair.trans hnext)]
      | some kind => rw [operator_pair hnext, operator_pair (hpair.trans hnext)]

theorem parameterLength_lower (cs : List Char) :
    parameterLength (cs.map Char.toLower) = parameterLength cs := by
  by_cases hhead : cs.head? = some '?'
  · obtain ⟨cs, rfl⟩ := List.head?_eq_some_iff.mp hhead
    exact congrArg (2 + ·) (runLength_lower isWordChar_lower cs)
  · rw [parameterLength_plain hhead, parameterLength_plain, runLength_lower isWordChar_lower]
    rw [List.head?_map, ne_eq, some_lower_iff (by decide)]
    exact hhead

/-! ## All forms -/

theorem commonLexeme_lower (c : Char) (rest : List Char) :
    commonLexeme c.toLower (rest.map Char.toLower) = commonLexeme c rest := by
  have hnumber : number (c.toLower :: rest.map Char.toLower) = number (c :: rest) := number_lower (c :: rest)
  unfold commonLexeme
  change (if _ then _ else if _ then _ else if startsNumber _ _ = true then _ else if _ then stringForm _ else _)
    = (if _ then _ else if _ then _ else if startsNumber _ _ = true then _ else if _ then stringForm _ else _)
  simp (disch := decide) only [isAlpha_lower, startsNumber_lower, hnumber, stringForm_lower, quotedName_lower,
    parameterLength_lower, operator_lower, runLength_lower isWordChar_lower, lower_eq_iff]

/-- **The form of a token does not hang on the case of letters**: neither its kind nor its length. -/
theorem lexeme_lower (mode : Mode) (c : Char) (rest : List Char) :
    lexeme mode c.toLower (rest.map Char.toLower) = lexeme mode c rest := by
  cases mode <;>
    simp only [lexeme, List.head?_map, isSourceChar_lower, sourceLength_lower, startsPattern_lower,
      runLength_lower isPatternChar_lower, commonLexeme_lower]

end Esql.Syntax
