import Esql.Proofs.Grammar.Phrase
import Esql.Proofs.Tokens.Letters
import Esql.Proofs.Tokens.Modes
import Mathlib.Data.List.TakeWhile

/-!
# `Proofs.Tokens.Spelling` — a token whose text is that of a terminal

The label of a keyword or an operator quotes its text. A token with this text is the keyword or the operator: always, if
it is a word (`keyword_of_spelling`), and for operators unless the mode takes their characters for those of a name
(`kind_of_sign`).

In two modes a word may end at different places, since index patterns and name patterns go on where a word of an
expression ends. If they do not, the two tokens have the same text (`next_word_in`).

## Contents
- `Terminal.spelling?`: what a label quotes.
- Operators: a sign is read as the kind that it is the sign of.
- Words: read as words in every mode, up to the first character that does not belong to them.
-/

namespace Esql.Syntax

open Esql.Text (isBlank)

variable {mode : Mode} {here : Cursor} {token : Token} {j k kind : Kind} {c : Char} {u rest text : List Char}

/-! ## What a label quotes -/

/-- The text that the label of a terminal quotes. -/
def Terminal.spelling? : Terminal → Option (List Char)
  | .kind k => k.sign?
  | .word w => some w.spelling.toList
  | .name => none

/-- A text between quotes. -/
def inQuotes (text : List Char) : List Char := '\x27' :: (text ++ ['\x27'])

theorem inQuotes_inj {text text' : List Char} (h : inQuotes text = inQuotes text') : text = text' :=
  List.append_cancel_right (List.cons.inj h).2

/-- A label without a quote at its start quotes nothing. -/
theorem Kind.label_spec (k : Kind) :
    (∀ text, k.sign? = some text → k.label.toList = inQuotes text) ∧
      (k.sign? = none → k.label.toList.head? ≠ some '\x27') := by
  cases k <;> simp [sign?, label, inQuotes]

/-- A label that quotes a text is that of a terminal with this text. -/
theorem spelling_of_label {t : Terminal} (h : t.label.toList = inQuotes text) : t.spelling? = some text := by
  cases t with
  | kind k =>
      obtain ⟨hsome, hnone⟩ := k.label_spec
      cases hsign : k.sign? with
      | none =>
          refine absurd ?_ (hnone hsign)
          show (Terminal.kind k).label.toList.head? = _
          rw [h]
          rfl
      | some sign =>
          have hquotes : inQuotes sign = inQuotes text := (hsome sign hsign).symm.trans h
          rw [← inQuotes_inj hquotes]
          exact hsign
  | word w =>
      have hlabel : (Terminal.word w).label.toList = inQuotes w.spelling.toList := by
        simp [Terminal.label, inQuotes]
      rw [← inQuotes_inj (hlabel.symm.trans h)]
      rfl
  | name =>
      have hhead : (Kind.label .identifier).toList.head? = some '\x27' := by
        show (Terminal.name).label.toList.head? = _
        rw [h]
        rfl
      exact absurd hhead (by decide)

/-! ## Operators -/

/-- What the first character of a sign is not. -/
structure OpensSign (k : Kind) (c : Char) (u : List Char) : Prop where
  letter : (c.isAlpha || c = '_' || c = '@') = false
  digit : c.isDigit = false
  quote : c ≠ '"'
  backquote : c ≠ backquote
  dot : c = '.' → u = []
  parameter : c = '?' → k = .parameter

theorem opensSign (h : k.sign? = some (c :: u)) : OpensSign k c u := by
  cases k <;> cases h <;> exact ⟨by decide, by decide, by decide, by decide, by decide, by decide⟩

/-- A sign is read as the kind of token that it is the sign of. -/
theorem commonLexeme_sign (h : commonLexeme c (u ++ rest) = (some kind, 1 + u.length))
    (hk : k.sign? = some (c :: u)) : kind = k := by
  have hopens := opensSign hk
  cases commonLexeme_cases h with
  | identifier hc _ _ =>
      rw [hopens.letter] at hc
      cases hc
  | number hc _ hn =>
      -- A point that begins a number has a digit behind it, so the token is longer than the sign.
      obtain ⟨hpoint, hdigit⟩ : c = '.' ∧ (u ++ rest).head?.any Char.isDigit = true := by
        simpa [startsNumber, hopens.digit] using hc
      have hle := two_le_number hdigit
      rw [← hpoint, ← hn, hopens.dot hpoint] at hle
      exact absurd hle (by decide)
  | string hc _ => exact absurd hc hopens.quote
  | quotedIdentifier hc _ => exact absurd hc hopens.backquote
  | parameter hc hkind _ => rw [hkind, hopens.parameter hc]
  | operator hform =>
      obtain ⟨d, u', rest', hsign, -, hlength, hcs⟩ := operator_begins hform
      obtain ⟨rfl, htail⟩ := List.cons.inj hcs
      obtain ⟨rfl, -⟩ := List.append_inj htail (by omega)
      exact sign_injective hsign hk

/-- Operators of which no character belongs to a name in this mode. -/
def Mode.knows : Mode → Kind → Bool
  | expression, _ => true
  | pattern, k => k ≠ .star
  | source, k => k.isSharp

theorem lexeme_sign (hknows : mode.knows k = true) (hk : k.sign? = some (c :: u)) (rest : List Char) :
    lexeme mode c rest = commonLexeme c rest := by
  cases mode with
  | expression => rfl
  | source =>
      exact lexeme_sharpChar (sharpChars_of_sign hk hknows) .source rest
  | pattern =>
      have hc : startsPattern c = false := by
        revert hknows
        cases k <;> cases hk <;> decide
      simp only [lexeme, hc, Bool.false_eq_true, if_false]

/-- A text in small letters without a letter is the text itself. -/
theorem eq_of_lower (hsign : ∀ d ∈ text, d.isAlpha = false) (h : u.map Char.toLower = text) : u = text := by
  induction u generalizing text with
  | nil => exact h
  | cons c u ih =>
      obtain ⟨d, text, rfl⟩ : ∃ d ds, text = d :: ds := ⟨_, _, h.symm⟩
      obtain ⟨hd, htext⟩ := List.forall_mem_cons.mp hsign
      obtain ⟨hc, hu⟩ := List.cons.inj h
      rw [(lower_eq_iff hd).mp hc, ih htext hu]

/-- **A token with the text of an operator is the operator**, in a mode that knows it. -/
theorem kind_of_sign (h : here.next mode = .ok token) (hknows : mode.knows k = true)
    (hsign : k.sign? = some (token.text.map Char.toLower)) : token.kind = k := by
  have htext : token.text = token.text.map Char.toLower := eq_of_lower (sign_letters hsign) rfl
  rw [← htext] at hsign
  obtain ⟨gap, hgap⟩ := next_ok h
  obtain hend | ⟨c, u, kind, hu, hform, hsymbol⟩ := hgap.form
  · rw [hend] at hsign
    cases k <;> cases hsign
  · rw [hu] at hsign
    rw [lexeme_sign hknows hsign] at hform
    have hkind : token.kind = kind := by rw [hsymbol]; rfl
    rw [hkind]
    exact commonLexeme_sign hform hsign

/-! ## Words -/

/-- The kind of token that a word is. -/
def Mode.wordKind : Mode → Kind
  | expression => .identifier
  | source => .source
  | pattern => .namePattern

/-- Whether a word goes on with a character, in front of another one. -/
def Mode.joins : Mode → Char → Option Char → Bool
  | expression, c, _ => isWordChar c
  | source, c, next => isSourceChar c next
  | pattern, c, _ => isPatternChar c

/-- How many characters belong to a word, on top of the first. -/
def Mode.wordTail : Mode → List Char → Nat
  | expression, rest => runLength isWordChar rest
  | source, rest => sourceLength 0 rest
  | pattern, rest => runLength isPatternChar rest

theorem sourceLength_eq (n : Nat) (rest : List Char) : sourceLength n rest = n + sourceLength 0 rest := by
  induction rest generalizing n with
  | nil => rfl
  | cons c rest ih =>
      rw [sourceLength, sourceLength]
      split
      · rw [ih (n + 1), ih (0 + 1)]
        omega
      · rfl

/-- What begins with a letter is a word in every mode. -/
theorem lexeme_letter (hc : c.isAlpha = true) (mode : Mode) (rest : List Char) :
    lexeme mode c rest = (some mode.wordKind, 1 + mode.wordTail rest) := by
  have hpattern : startsPattern c = true := by rw [startsPattern, hc, Bool.true_or, Bool.true_or, Bool.true_or]
  cases mode with
  | expression =>
      show commonLexeme c rest = _
      unfold commonLexeme
      rw [if_pos hc]
      rfl
  | source =>
      show (if isSourceChar c rest.head? then _ else _) = _
      rw [if_pos (isSourceChar_of_startsPattern hpattern _), sourceLength_eq]
      rfl
  | pattern =>
      show (if startsPattern c then _ else _) = _
      rw [if_pos hpattern]
      rfl

theorem letter_of_spelling {w : Keyword} (h : (c :: u).map Char.toLower = w.spelling.toList) : c.isAlpha = true := by
  have hfirst : w.spelling.toList.head?.all Char.isAlpha = true := by
    cases w <;> decide
  rw [← h] at hfirst
  rw [← isAlpha_lower]
  exact hfirst

/-- **A token with the letters of a keyword is the keyword**, in every mode. -/
theorem keyword_of_spelling (h : here.next mode = .ok token) {w : Keyword}
    (hspells : token.text.map Char.toLower = w.spelling.toList) : token.keyword = some w := by
  refine (keyword_eq_some_iff h).mpr ⟨?_, hspells⟩
  obtain ⟨gap, hgap⟩ := next_ok h
  obtain hend | ⟨c, u, kind, hu, hform, hsymbol⟩ := hgap.form
  · rw [hend] at hspells
    cases w <;> cases hspells
  · rw [hu] at hspells
    rw [lexeme_letter (letter_of_spelling hspells)] at hform
    have hkind : token.kind = mode.wordKind := by
      rw [hsymbol]
      exact (Option.some.inj (congrArg Prod.fst hform)).symm
    rw [hkind]
    cases mode <;> rfl

/-! ### Words in two modes -/

theorem runLength_append {p : Char → Bool} (hu : ∀ d ∈ u, p d = true) (rest : List Char) :
    runLength p (u ++ rest) = u.length + runLength p rest := by
  rw [runLength, runLength, List.takeWhile_append_of_pos hu, List.length_append]

/-- A text is a run of characters of a class and what follows the run. -/
theorem runLength_split (p : Char → Bool) (cs : List Char) :
    ∃ u rest, cs = u ++ rest ∧ runLength p cs = u.length ∧ (∀ d ∈ u, p d = true) ∧
      ∀ d behind, rest = d :: behind → p d = false := by
  refine ⟨cs.takeWhile p, cs.dropWhile p, List.takeWhile_append_dropWhile.symm, rfl,
    fun d hd => List.mem_takeWhile_imp hd, fun d behind hrest => ?_⟩
  have hhead := List.head?_dropWhile_not p cs
  rw [hrest] at hhead
  simpa using hhead

/-- The characters of a word belong to index patterns. -/
theorem isSourceChar_wordChar (hc : isWordChar c = true) (next : Option Char) : isSourceChar c next = true := by
  have hblank : isBlank c = false := by
    refine Bool.eq_false_iff.mpr fun hblank => ?_
    rw [isWordChar_blank hblank] at hc
    cases hc
  have hother : ∀ d ∈ ['/', ':', '"', '=', '|', ',', '[', ']'], c ≠ d := by
    rintro d hd rfl
    simp only [List.mem_cons, List.not_mem_nil, or_false] at hd
    rcases hd with rfl | rfl | rfl | rfl | rfl | rfl | rfl | rfl <;> revert hc <;> decide
  simp_all [isSourceChar]

/-- The characters that belong to a word of an expression belong to it in every mode. -/
theorem wordTail_append (hu : ∀ d ∈ u, isWordChar d = true) (mode : Mode) (rest : List Char) :
    mode.wordTail (u ++ rest) = u.length + mode.wordTail rest := by
  cases mode with
  | expression => exact runLength_append hu rest
  | pattern => exact runLength_append (fun d hd => by rw [isPatternChar, hu d hd, Bool.true_or]) rest
  | source =>
      show sourceLength 0 (u ++ rest) = u.length + sourceLength 0 rest
      induction u with
      | nil => exact (Nat.zero_add _).symm
      | cons d u ih =>
          obtain ⟨hd, htail⟩ := List.forall_mem_cons.mp hu
          rw [List.cons_append, sourceLength, if_pos (isSourceChar_wordChar hd _), sourceLength_eq, ih htail,
            List.length_cons]
          omega

/-- A word goes on just if the next character joins it. -/
theorem wordTail_ne_zero (h : mode.wordTail rest ≠ 0) :
    ∃ d behind, rest = d :: behind ∧ mode.joins d behind.head? = true := by
  cases rest with
  | nil =>
      refine absurd ?_ h
      cases mode <;> rfl
  | cons d behind =>
      refine ⟨d, behind, rfl, ?_⟩
      refine Decidable.byContradiction fun hjoins => h ?_
      have hfalse : mode.joins d behind.head? = false := Bool.eq_false_iff.mpr hjoins
      cases mode with
      | expression =>
          show runLength isWordChar (d :: behind) = 0
          rw [runLength_cons, show isWordChar d = false from hfalse]
          rfl
      | pattern =>
          show runLength isPatternChar (d :: behind) = 0
          rw [runLength_cons, show isPatternChar d = false from hfalse]
          rfl
      | source =>
          show sourceLength 0 (d :: behind) = 0
          rw [sourceLength, show isSourceChar d behind.head? = false from hfalse]
          rfl

/-- **One word in two modes.** A keyword of an expression is the same keyword in another mode, unless a character stands
    right behind it that joins a word in that mode and no word of an expression. -/
theorem next_word_in (h : here.next .expression = .ok token) {w : Keyword}
    (hspells : token.text.map Char.toLower = w.spelling.toList) (mode : Mode) :
    (∃ d behind, token.rest = d :: behind ∧ isWordChar d = false ∧ mode.joins d behind.head? = true) ∨
      ∃ t, here.next mode = .ok t ∧ t.keyword = some w := by
  obtain ⟨⟨p, cs⟩, htoken, -, hall⟩ := next_eq_token h
  cases cs with
  | nil =>
      obtain rfl : Token.endOfText p = token := Except.ok.inj htoken
      cases w <;> cases hspells
  | cons c cs =>
      obtain ⟨kind, n, hform, rfl⟩ := token_cons htoken
      obtain ⟨n, rfl⟩ : ∃ m, n = m + 1 := ⟨n - 1, by have := (lexeme_covers hform).pos; omega⟩
      have hletter : c.isAlpha = true := letter_of_spelling hspells
      obtain ⟨u, rest, rfl, hlength, hword, hend⟩ := runLength_split isWordChar cs
      have hn : n = u.length := by
        rw [lexeme_letter hletter] at hform
        have hcount : 1 + runLength isWordChar (u ++ rest) = n + 1 := congrArg Prod.snd hform
        omega
      have hrest : (Token.cut kind (n + 1) ⟨p, c :: (u ++ rest)⟩).rest = rest := by
        show (c :: (u ++ rest)).drop (n + 1) = rest
        rw [hn, List.drop_succ_cons, List.drop_left]
      rw [hrest]
      by_cases htail : mode.wordTail rest = 0
      · -- The word ends at the same place, so the token has the same text.
        right
        have hnext : here.next mode = .ok (Token.cut mode.wordKind (n + 1) ⟨p, c :: (u ++ rest)⟩) := by
          rw [hall mode]
          simp only [Cursor.token, lexeme_letter hletter, wordTail_append hword, htail, hn, Nat.add_zero,
            Nat.add_comm 1]
        exact ⟨_, hnext, keyword_of_spelling hnext hspells⟩
      · left
        obtain ⟨d, behind, rfl, hjoins⟩ := wordTail_ne_zero htail
        exact ⟨d, behind, rfl, hend d behind rfl, hjoins⟩

end Esql.Syntax
