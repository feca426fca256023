import Esql.Proofs.Tokens.Extent

/-!
# `Proofs.Tokens.Modes` — what a token in one mode says about another mode

The three ways of cutting a text into tokens differ where a character may belong to a name or to an operator.
Some tokens are the same in every mode, because they begin with a character that belongs to no name: these are
the sharp kinds (`next_sharp`). A word that is found in one mode begins an index pattern when it is read as
one (`next_source_of_word`).
-/

namespace Esql.Syntax

open Esql.Text (Position isBlank)

variable {mode : Mode} {here : Cursor} {token : Token}

/-- The kinds of token that are the same in every mode. -/
def Kind.isSharp : Kind → Bool
  | string | equal | equalAnyCase | assign | cast | colon | pipe | comma | leftBracket | rightBracket
  | endOfText => true
  | _ => false

/-- The characters that belong to no name. -/
def sharpChars : List Char := ['"', '=', ':', '|', ',', '[', ']']

/-- The sign of a sharp kind begins with one of them. -/
theorem sharpChars_of_sign {k : Kind} {c : Char} {u : List Char} (h : k.sign? = some (c :: u))
    (hk : k.isSharp = true) : c ∈ sharpChars := by
  revert hk
  cases k <;> cases h <;> decide

theorem operator_sharp {c : Char} {rest : List Char} {kind : Kind} {n : Nat}
    (h : operator (c :: rest) = (some kind, n)) (hkind : kind.isSharp = true) : c ∈ sharpChars := by
  obtain ⟨d, u, rest', hsign, -, -, hcs⟩ := operator_begins h
  obtain ⟨rfl, -⟩ := List.cons.inj hcs
  exact sharpChars_of_sign hsign hkind

theorem commonLexeme_sharp {c : Char} {rest : List Char} {kind : Kind} {n : Nat}
    (h : commonLexeme c rest = (some kind, n)) (hkind : kind.isSharp = true) : c ∈ sharpChars := by
  cases commonLexeme_cases h with
  | identifier _ hk _ | parameter _ hk _ =>
      rw [hk] at hkind
      cases hkind
  | number _ hk _ =>
      rw [hk] at hkind
      rcases number_kind (c :: rest) with hk | hk <;> rw [hk] at hkind <;> cases hkind
  | string hc _ =>
      rw [hc]
      decide
  | quotedIdentifier _ hform =>
      rw [(quotedName_some hform).1] at hkind
      cases hkind
  | operator hform => exact operator_sharp hform hkind

/-- A character that belongs to no name begins no form of a mode's own. -/
theorem lexeme_sharpChar {c : Char} (h : c ∈ sharpChars) (mode : Mode) (rest : List Char) :
    lexeme mode c rest = commonLexeme c rest := by
  have hsource : ∀ next, isSourceChar c next = false := by
    intro next
    simp only [sharpChars, List.mem_cons, List.not_mem_nil, or_false] at h
    rcases h with rfl | rfl | rfl | rfl | rfl | rfl | rfl <;> simp [isSourceChar]
  have hpattern : startsPattern c = false := by
    simp only [sharpChars, List.mem_cons, List.not_mem_nil, or_false] at h
    rcases h with rfl | rfl | rfl | rfl | rfl | rfl | rfl <;> decide
  cases mode <;> simp [lexeme, hsource, hpattern]

theorem lexeme_sharp {c : Char} {rest : List Char} {kind : Kind} {n : Nat}
    (h : lexeme mode c rest = (some kind, n)) (hkind : kind.isSharp = true) : c ∈ sharpChars := by
  unfold lexeme at h
  cases mode with
  | expression => exact commonLexeme_sharp h hkind
  | pattern =>
      dsimp only at h
      split at h
      · cases h
        cases hkind
      · exact commonLexeme_sharp h hkind
  | source =>
      dsimp only at h
      split at h
      · cases h
        cases hkind
      · exact commonLexeme_sharp h hkind

/-- Behind its trivia, a place has a token in every mode, or has none in any. -/
theorem next_eq_token (h : here.next mode = .ok token) :
    ∃ there : Cursor, there.token mode = .ok token ∧ Bare there.rest ∧ ∀ m, here.next m = there.token m := by
  unfold Cursor.next at h
  cases hskip : skipTrivia .nothing here.position here.rest with
  | error e =>
      rw [hskip] at h
      cases h
  | ok there =>
      rw [hskip] at h
      obtain ⟨-, -, -, -, hbare, -⟩ := skips_of_ok hskip
      refine ⟨there, h, hbare, ?_⟩
      intro m
      rw [Cursor.next, hskip]
      rfl

/-- A token of a sharp kind is the same in every mode. -/
theorem next_sharp (h : here.next mode = .ok token) (hkind : token.kind.isSharp = true) (m : Mode) :
    here.next m = .ok token := by
  obtain ⟨⟨p, rest⟩, htoken, -, hall⟩ := next_eq_token h
  rw [hall m]
  cases rest with
  | nil => exact htoken
  | cons c rest =>
      obtain ⟨kind, n, hform, rfl⟩ := token_cons htoken
      have hc := lexeme_sharp hform hkind
      rw [lexeme_sharpChar hc] at hform
      simp only [Cursor.token, lexeme_sharpChar hc, hform]

theorem operator_word {cs : List Char} {kind : Kind} {n : Nat} (h : operator cs = (some kind, n)) :
    kind.isWord = false := by
  obtain ⟨c, u, rest, hsign, -⟩ := operator_begins h
  exact (kind_of_signed hsign).1

theorem commonLexeme_word {c : Char} {rest : List Char} {kind : Kind} {n : Nat}
    (h : commonLexeme c rest = (some kind, n)) (hkind : kind.isWord = true) : startsPattern c = true := by
  cases commonLexeme_cases h with
  | identifier hc _ _ => rw [startsPattern, hc, Bool.true_or]
  | parameter _ hk _ =>
      rw [hk] at hkind
      cases hkind
  | number _ hk _ =>
      rw [hk] at hkind
      rcases number_kind (c :: rest) with hk | hk <;> rw [hk] at hkind <;> cases hkind
  | string _ hform =>
      rw [(stringForm_some hform).1] at hkind
      cases hkind
  | quotedIdentifier _ hform =>
      rw [(quotedName_some hform).1] at hkind
      cases hkind
  | operator hform =>
      rw [operator_word hform] at hkind
      cases hkind

/-- What a name pattern may begin with, an index pattern may begin with too. -/
theorem isSourceChar_of_startsPattern {c : Char} (h : startsPattern c = true) (next : Option Char) :
    isSourceChar c next = true := by
  have hblank : isBlank c = false := by
    refine Bool.eq_false_iff.mpr ?_
    intro hblank
    have hword := isWordChar_blank hblank
    have hat : c ≠ '@' := by
      rintro rfl
      exact absurd hblank (by decide)
    have hstar : c ≠ '*' := by
      rintro rfl
      exact absurd hblank (by decide)
    simp_all [startsPattern, isWordChar, Char.isAlphanum]
  have hother : ∀ d ∈ ['/', ':', '"', '=', '|', ',', '[', ']'], c ≠ d := by
    rintro d hd rfl
    simp only [List.mem_cons, List.not_mem_nil, or_false] at hd
    rcases hd with rfl | rfl | rfl | rfl | rfl | rfl | rfl | rfl <;> revert h <;> decide
  simp_all [isSourceChar]

/-- A word begins an index pattern when it is read as one. -/
theorem next_source_of_word (h : here.next mode = .ok token) (hkind : token.kind.isWord = true) :
    ∃ t, here.next .source = .ok t ∧ t.kind = .source := by
  obtain ⟨⟨p, rest⟩, htoken, -, hall⟩ := next_eq_token h
  rw [hall .source]
  cases rest with
  | nil =>
      obtain rfl : Token.endOfText p = token := Except.ok.inj htoken
      cases hkind
  | cons c rest =>
      obtain ⟨kind, n, hform, rfl⟩ := token_cons htoken
      change kind.isWord = true at hkind
      have hsource : isSourceChar c rest.head? = true := by
        unfold lexeme at hform
        cases mode with
        | expression => exact isSourceChar_of_startsPattern (commonLexeme_word hform hkind) _
        | pattern =>
            dsimp only at hform
            split at hform
            · rename_i hc
              exact isSourceChar_of_startsPattern hc _
            · exact isSourceChar_of_startsPattern (commonLexeme_word hform hkind) _
        | source =>
            dsimp only at hform
            split at hform
            · assumption
            · exact isSourceChar_of_startsPattern (commonLexeme_word hform hkind) _
      refine ⟨Token.cut .source (sourceLength 1 rest) ⟨p, c :: rest⟩, ?_, rfl⟩
      simp only [Cursor.token, lexeme, hsource, if_true]

/-! ## Terminals that exclude each other -/

/-- No token is one that both terminals stand for. -/
def Terminal.excludes : Terminal → Terminal → Bool
  | kind j, kind k => j ≠ k
  | kind k, word _ | word _, kind k => !k.isWord
  | kind k, name | name, kind k => k ≠ .identifier
  | word v, word w => v ≠ w
  | word w, name | name, word w => w.isReserved
  | name, name => false

theorem excludes_sound (h : here.next mode = .ok token) {t u : Terminal}
    (ht : t.accepts token.toSymbol = true) (hu : u.accepts token.toSymbol = true) :
    t.excludes u = false := by
  have hword : ∀ w, token.keyword = some w → token.kind.isWord = true := fun w => isWord_of_keyword h
  unfold Terminal.excludes
  split <;> simp_all [Terminal.accepts]

end Esql.Syntax
