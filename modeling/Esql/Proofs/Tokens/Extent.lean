import Esql.Proofs.Tokens.Seam
import Esql.Proofs.Tokens.Signs
import Mathlib.Data.List.Induction

/-!
# `Proofs.Tokens.Extent` — where a token stands in a text

A token is read off a place in two parts: the trivia in front of it, and the piece of text that it covers.
This module says what these parts are (`next_ok`), and moves them to other texts. A place whose text goes
on in another way from some point has the same token, as long as the token ends before that point
(`next_splice`); and a text whose last trivia are followed by a new line is read on there as if nothing stood
in front of it (`exists_gap`). A fault, too, covers a piece of the text (`next_refused`).

## Contents
- Line and column of a place, in terms of the text in front of it.
- The length of a form: never zero, never more than the text.
- `Cursor.beyond` and `next_ok`.
- `Spliced`: two places in texts that differ from some point on, and `next_splice`.
- `next_refused`: the piece of text in a fault.
- `next_word`: words between blanks.
-/

namespace Esql.Syntax

open Esql.Text (Position isBlank)

variable {mode : Mode} {u v w : List Char}

/-! ## Lines and columns -/

/-- The end of a text behind its last line feed. -/
def lastLine (cs : List Char) : List Char := (cs.reverse.takeWhile (· ≠ '\n')).reverse

theorem lastLine_append_one (cs : List Char) (c : Char) :
    lastLine (cs ++ [c]) = if c = '\n' then [] else lastLine cs ++ [c] := by
  unfold lastLine
  rw [List.reverse_append, List.reverse_singleton, List.singleton_append, List.takeWhile_cons]
  by_cases hc : c = '\n' <;> simp [hc]

/-- The place behind a text: its line feeds are counted, and the characters behind the last one. -/
theorem after_start (cs : List Char) :
    Position.start.after cs = ⟨1 + cs.count '\n', (lastLine cs).length⟩ := by
  induction cs using List.reverseRecOn with
  | nil => rfl
  | append_singleton cs c ih =>
      rw [Position.after_append, ih, lastLine_append_one, List.count_append]
      by_cases hc : c = '\n'
      · subst hc
        rfl
      · simp [Position.advance, hc]

/-! ## The length of a form -/

theorem runLength_le (p : Char → Bool) (cs : List Char) : runLength p cs ≤ cs.length :=
  (List.takeWhile_prefix p).length_le

theorem sourceLength_le (n : Nat) (cs : List Char) : sourceLength n cs ≤ n + cs.length := by
  fun_induction sourceLength n cs with
  | case1 n c rest _ ih =>
      rw [List.length_cons]
      omega
  | case2 => exact Nat.le_add_right _ _
  | case3 => exact Nat.le_add_right _ _

theorem exponentLength_le (cs : List Char) : exponentLength cs ≤ cs.length := by
  match cs with
  | [] | [_] => exact Nat.zero_le _
  | e :: c :: rest =>
      have hrun := runLength_le Char.isDigit rest
      rw [exponentLength_cons]
      simp only [List.length_cons]
      split <;> omega

theorem number_le (cs : List Char) : (number cs).2 ≤ cs.length := by
  have hwhole := runLength_le Char.isDigit cs
  have hdrop : (cs.drop (runLength Char.isDigit cs)).length = cs.length - runLength Char.isDigit cs :=
    List.length_drop
  by_cases hpoint : (cs.drop (runLength Char.isDigit cs)).head? = some '.'
  · obtain ⟨rest, hrest⟩ := List.head?_eq_some_iff.mp hpoint
    have hfraction := runLength_le Char.isDigit rest
    have hexponent := exponentLength_le (rest.drop (runLength Char.isDigit rest))
    rw [hrest, List.length_cons] at hdrop
    rw [List.length_drop] at hexponent
    rw [number_point hrest]
    dsimp only
    omega
  · have hexponent := exponentLength_le (cs.drop (runLength Char.isDigit cs))
    rw [number_whole hpoint]
    dsimp only
    omega

theorem number_pos {c : Char} {rest : List Char} (h : startsNumber c rest = true) :
    0 < (number (c :: rest)).2 := by
  by_cases hdigit : c.isDigit = true
  · have hwhole := runLength_le_number (c :: rest)
    rw [runLength_cons, if_pos hdigit] at hwhole
    omega
  · obtain ⟨hpoint, hrest⟩ : c = '.' ∧ rest.head?.any Char.isDigit = true := by
      simpa [startsNumber, hdigit] using h
    subst hpoint
    exact Nat.lt_of_lt_of_le Nat.zero_lt_two (two_le_number hrest)

theorem number_kind (cs : List Char) : (number cs).1 = .integer ∨ (number cs).1 = .decimal := by
  by_cases hpoint : (cs.drop (runLength Char.isDigit cs)).head? = some '.'
  · obtain ⟨rest, hrest⟩ := List.head?_eq_some_iff.mp hpoint
    rw [number_point hrest]
    exact .inr rfl
  · rw [number_whole hpoint]
    dsimp only
    split
    · exact .inl rfl
    · exact .inr rfl

/-- A kind of token that has a text: not the end of the text. -/
structure Covers (kind : Kind) (n : Nat) (cs : List Char) : Prop where
  kind : kind ≠ .endOfText
  pos : 0 < n
  le : n ≤ cs.length

theorem operator_covers {cs : List Char} {kind : Kind} {n : Nat} (h : operator cs = (some kind, n)) :
    Covers kind n cs := by
  obtain ⟨c, u, rest, hsign, -, rfl, rfl⟩ := operator_begins h
  exact ⟨(kind_of_signed hsign).2, by omega, by simp⟩

/-- The forms that are common to all modes. -/
inductive CommonForm (c : Char) (rest : List Char) (kind : Kind) (n : Nat) : Prop where
  | identifier : (c.isAlpha || c = '_' || c = '@') = true → kind = .identifier →
      n = 1 + runLength isWordChar rest → CommonForm c rest kind n
  | number : startsNumber c rest = true → kind = (number (c :: rest)).1 → n = (number (c :: rest)).2 →
      CommonForm c rest kind n
  | string : c = '"' → stringForm rest = (some kind, n) → CommonForm c rest kind n
  | quotedIdentifier : c = backquote → quotedName 1 rest = (some kind, n) → CommonForm c rest kind n
  | parameter : c = '?' → kind = .parameter → n = parameterLength rest → CommonForm c rest kind n
  | operator : operator (c :: rest) = (some kind, n) → CommonForm c rest kind n

theorem commonLexeme_cases {c : Char} {rest : List Char} {kind : Kind} {n : Nat}
    (h : commonLexeme c rest = (some kind, n)) : CommonForm c rest kind n := by
  unfold commonLexeme at h
  by_cases hletter : c.isAlpha = true
  · rw [if_pos hletter] at h
    cases h
    exact .identifier (by simp [hletter]) rfl rfl
  rw [if_neg hletter] at h
  by_cases hscore : (c = '_' || c = '@') = true
  · rw [if_pos hscore] at h
    dsimp only at h
    split at h <;> cases h
    exact .identifier (by rw [Bool.or_assoc, hscore, Bool.or_true]) rfl rfl
  rw [if_neg hscore] at h
  change (if startsNumber c rest = true then _ else _) = _ at h
  by_cases hnumber : startsNumber c rest = true
  · rw [if_pos hnumber] at h
    have hkind : (Esql.Syntax.number (c :: rest)).1 = kind := Option.some.inj (congrArg Prod.fst h)
    have hn : (Esql.Syntax.number (c :: rest)).2 = n := congrArg Prod.snd h
    exact .number hnumber hkind.symm hn.symm
  rw [if_neg hnumber] at h
  by_cases hquote : c = '"'
  · rw [if_pos hquote] at h
    exact .string hquote h
  rw [if_neg hquote] at h
  by_cases hname : c = backquote
  · rw [if_pos hname] at h
    exact .quotedIdentifier hname h
  rw [if_neg hname] at h
  by_cases hparameter : c = '?'
  · rw [if_pos hparameter] at h
    cases h
    exact .parameter hparameter rfl rfl
  rw [if_neg hparameter] at h
  exact .operator h

/-- A string is of one of two forms, and covers its quotes at least. -/
theorem stringForm_some {rest : List Char} {kind : Kind} {n : Nat} (h : stringForm rest = (some kind, n)) :
    kind = .string ∧ 1 < n ∧ n ≤ 1 + rest.length := by
  by_cases htext : ∃ body, rest = '"' :: '"' :: body
  · obtain ⟨body, rfl⟩ := htext
    obtain ⟨rfl, hlt, hle⟩ := quotedText_some h
    exact ⟨rfl, by omega, by simp only [List.length_cons]; omega⟩
  · rw [stringForm_line (fun body hbody => htext ⟨body, hbody⟩)] at h
    exact quotedLine_some h

theorem parameterLength_le (cs : List Char) : parameterLength cs ≤ 1 + cs.length := by
  unfold parameterLength
  split
  · rename_i rest
    have := runLength_le isWordChar rest
    simp only [List.length_cons]
    omega
  · have := runLength_le isWordChar cs
    omega

theorem commonLexeme_covers {c : Char} {rest : List Char} {kind : Kind} {n : Nat}
    (h : commonLexeme c rest = (some kind, n)) : Covers kind n (c :: rest) := by
  cases commonLexeme_cases h with
  | identifier hc hkind hn =>
      have := runLength_le isWordChar rest
      exact ⟨by rw [hkind]; decide, by omega, by simp only [List.length_cons]; omega⟩
  | number hstart hkind hn =>
      refine ⟨?_, hn ▸ number_pos hstart, hn ▸ number_le _⟩
      rcases number_kind (c :: rest) with hk | hk <;> rw [hkind, hk] <;> decide
  | string hc hform =>
      obtain ⟨hkind, hlt, hle⟩ := stringForm_some hform
      exact ⟨by rw [hkind]; decide, by omega, by simp only [List.length_cons]; omega⟩
  | quotedIdentifier hc hform =>
      obtain ⟨hkind, hlt, hle⟩ := quotedName_some hform
      exact ⟨by rw [hkind]; decide, by omega, by simp only [List.length_cons]; omega⟩
  | parameter hc hkind hn =>
      have hle := parameterLength_le rest
      have hpos : 0 < parameterLength rest := by
        unfold parameterLength
        split <;> omega
      exact ⟨by rw [hkind]; decide, by omega, by simp only [List.length_cons]; omega⟩
  | operator hform => exact operator_covers hform

/-- A form covers some of the text and no more than all of it. -/
theorem lexeme_covers {c : Char} {rest : List Char} {kind : Kind} {n : Nat}
    (h : lexeme mode c rest = (some kind, n)) : Covers kind n (c :: rest) := by
  unfold lexeme at h
  cases mode with
  | expression => exact commonLexeme_covers h
  | pattern =>
      dsimp only at h
      split at h
      · cases h
        have := runLength_le isPatternChar rest
        exact ⟨by decide, by omega, by simp only [List.length_cons]; omega⟩
      · exact commonLexeme_covers h
  | source =>
      dsimp only at h
      split at h
      · cases h
        have := le_sourceLength 1 rest
        have := sourceLength_le 1 rest
        exact ⟨by decide, by omega, by simp only [List.length_cons]; omega⟩
      · exact commonLexeme_covers h

/-! ## The place of a token -/

/-- The token at a place that no trivia follows, if the text is not over there. -/
theorem token_cons {p : Position} {c : Char} {rest : List Char} {token : Token}
    (h : (Cursor.mk p (c :: rest)).token mode = .ok token) :
    ∃ kind n, lexeme mode c rest = (some kind, n) ∧ token = Token.cut kind n ⟨p, c :: rest⟩ := by
  unfold Cursor.token at h
  dsimp only at h
  split at h
  · rename_i kind n hform
    cases h
    exact ⟨kind, n, hform, rfl⟩
  · cases h

/-- Where the text behind all trivia begins, or the comment that is never closed. -/
def Cursor.beyond (here : Cursor) : Position :=
  match skipTrivia .nothing here.position here.rest with
  | .ok there => there.position
  | .error e => e.position

/-- A token, and the trivia between a place and the token. -/
structure Stands (mode : Mode) (here : Cursor) (token : Token) (gap : List Char) : Prop where
  text : here.rest = gap ++ (token.text ++ token.rest)
  start : token.start = here.position.after gap
  beyond : token.start = here.beyond
  bare : Bare (token.text ++ token.rest)
  skips : token.text ≠ [] → Skips .nothing gap .nothing
  form : token = Token.endOfText token.start ∨
    ∃ c u kind, token.text = c :: u ∧ lexeme mode c (u ++ token.rest) = (some kind, 1 + u.length) ∧
      token.toSymbol = .ofText kind (c :: u)

/-- **What a token is.** The text at a place is trivia, then the token, then what follows it. -/
theorem next_ok {here : Cursor} {token : Token} (h : here.next mode = .ok token) :
    ∃ gap, Stands mode here token gap := by
  unfold Cursor.next at h
  cases hskip : skipTrivia .nothing here.position here.rest with
  | error e =>
      rw [hskip] at h
      cases h
  | ok there =>
      rw [hskip] at h
      change there.token mode = .ok token at h
      have hbeyond : here.beyond = there.position := by rw [Cursor.beyond, hskip]
      obtain ⟨gap, b, htext, hplace, hbare, hskips, hb⟩ := skips_of_ok hskip
      obtain ⟨p, rest⟩ := there
      cases rest with
      | nil =>
          obtain rfl : Token.endOfText p = token := Except.ok.inj h
          exact ⟨gap, htext, hplace, hbeyond.symm, hbare, fun h => absurd rfl h, .inl rfl⟩
      | cons c rest =>
          obtain ⟨kind, n, hform, rfl⟩ := token_cons h
          have hcovers := lexeme_covers hform
          obtain ⟨n, rfl⟩ : ∃ m, n = m + 1 := ⟨n - 1, by have := hcovers.pos; omega⟩
          have hle : n ≤ rest.length := by simpa using hcovers.le
          have hparts : (c :: rest).take (n + 1) ++ (c :: rest).drop (n + 1) = c :: rest :=
            List.take_append_drop _ _
          refine ⟨gap, ?_, hplace, hbeyond.symm, ?_, ?_, .inr ⟨c, rest.take n, kind, rfl, ?_, rfl⟩⟩
          · rw [htext]
            exact congrArg (gap ++ ·) hparts.symm
          · change Bare ((c :: rest).take (n + 1) ++ (c :: rest).drop (n + 1))
            rw [hparts]
            exact hbare
          · intro _
            obtain rfl | ⟨rfl, hnil⟩ := hb
            · exact hskips
            · cases hnil
          · change lexeme mode c (rest.take n ++ rest.drop n) = _
            rw [List.take_append_drop, hform, List.length_take_of_le hle, Nat.add_comm]

/-- Only a token without a text is the end of the text. -/
theorem kind_eq_endOfText_iff {here : Cursor} {token : Token} (h : here.next mode = .ok token) :
    token.kind = .endOfText ↔ token.text = [] := by
  obtain ⟨gap, hgap⟩ := next_ok h
  obtain hend | ⟨c, u, kind, hu, hform, hsymbol⟩ := hgap.form
  · rw [hend]
    exact ⟨fun _ => rfl, fun _ => rfl⟩
  · have hkind : token.kind = kind := by rw [hsymbol]; rfl
    rw [hkind, hu]
    exact ⟨fun h => absurd h (lexeme_covers hform).kind, fun h => absurd h (by simp)⟩

/-- Only words spell keywords. -/
theorem isWord_of_keyword {here : Cursor} {token : Token} (h : here.next mode = .ok token) {w : Keyword}
    (hw : token.keyword = some w) : token.kind.isWord = true := by
  have hsymbol : ∃ kind text, token.toSymbol = .ofText kind text := by
    obtain ⟨gap, hgap⟩ := next_ok h
    obtain hend | ⟨c, u, kind, -, -, hsymbol⟩ := hgap.form
    · exact ⟨.endOfText, [], by rw [hend]; rfl⟩
    · exact ⟨kind, c :: u, hsymbol⟩
  obtain ⟨kind, text, hsymbol⟩ := hsymbol
  rw [hsymbol] at hw ⊢
  unfold Symbol.ofText at hw ⊢
  by_cases hkind : kind.isWord = true
  · exact hkind
  · rw [if_neg hkind] at hw
    cases hw

/-- Trivia that are passed at the start of one text are passed at the start of every other. -/
theorem skipTrivia_gap {gap : List Char} (h : Skips .nothing gap .nothing) (p : Position)
    (cs : List Char) :
    skipTrivia .nothing p (gap ++ cs) = skipTrivia .nothing (p.after gap) cs :=
  @skipTrivia_append .nothing .nothing gap h (by decide) p cs

/-- A piece of text that is a token by its form, behind trivia. -/
theorem next_of_form {p : Position} {gap rest : List Char} {c : Char} {kind : Kind}
    (hgap : Skips .nothing gap .nothing) (hbare : Bare (c :: (u ++ rest)))
    (hform : lexeme mode c (u ++ rest) = (some kind, 1 + u.length)) :
    (Cursor.mk p (gap ++ c :: (u ++ rest))).next mode
      = .ok ⟨.ofText kind (c :: u), c :: u, p.after gap, rest⟩ := by
  have hskip : skipTrivia .nothing p (gap ++ c :: (u ++ rest)) = .ok ⟨p.after gap, c :: (u ++ rest)⟩ := by
    rw [skipTrivia_gap hgap, skipTrivia_bare hbare]
  unfold Cursor.next
  rw [hskip]
  change (Cursor.mk (p.after gap) (c :: (u ++ rest))).token mode = _
  have htake : (c :: (u ++ rest)).take (1 + u.length) = c :: u := by
    rw [Nat.add_comm, List.take_succ_cons, List.take_left]
  have hdrop : (c :: (u ++ rest)).drop (1 + u.length) = rest := by
    rw [Nat.add_comm, List.drop_succ_cons, List.drop_left]
  simp only [Cursor.token, hform, Token.cut, htake, hdrop]

/-! ## Texts that differ from some point on -/

/-- Two places at which the same text stands up to a seam, with `v` behind it in one text and `w` in the
    other. The seam does not divide what opens a comment. -/
def Spliced (v w : List Char) (a b : Cursor) : Prop :=
  ∃ u, a.rest = u ++ v ∧ b = ⟨a.position, u ++ w⟩ ∧ (u = ['/'] → opensComment ('/' :: v) = false)

theorem opensComment_seam (hw : Spaced w) {c : Char} (h : opensComment (c :: (u ++ v)) = false) :
    opensComment (c :: (u ++ w)) = false := by
  by_cases hc : c = '/'
  · subst hc
    cases u with
    | nil => exact opensComment_spaced hw
    | cons d u =>
        simp only [List.cons_append] at h ⊢
        unfold opensComment at h ⊢
        split at h <;> simp_all
  · exact opensComment_false hc _

/-- A token that ends at a seam or before it stands in the other text too. -/
theorem next_splice (hw : Spaced w) {a b : Cursor} {token : Token} (h : a.next mode = .ok token)
    (htext : token.text ≠ []) (hfinish : Spliced v w token.finish b) :
    ∃ a' token', Spliced v w a a' ∧ a'.next mode = .ok token' ∧ token'.toSymbol = token.toSymbol ∧
      token'.text = token.text ∧ token'.finish = b := by
  obtain ⟨gap, hgap⟩ := next_ok h
  obtain ⟨r, hrest, rfl, hslash⟩ := hfinish
  obtain hend | ⟨c, u, kind, hu, hform, hsymbol⟩ := hgap.form
  · rw [hend] at htext
    exact absurd rfl htext
  change token.rest = r ++ v at hrest
  have hbare := hgap.bare
  rw [hu, hrest, List.cons_append, ← List.append_assoc] at hbare
  rw [hrest, ← List.append_assoc] at hform
  have hopen : opensComment (c :: (u ++ r ++ v)) = false := hbare.2
  have hdrop : (u ++ r).drop (1 + u.length - 1) = ['/'] → opensComment ('/' :: v) = false := by
    rw [Nat.add_sub_cancel_left, List.drop_left]
    exact hslash
  have hform' := lexeme_seam hw hform (by rw [List.length_append]; omega) hopen hdrop
  have hbare' : Bare (c :: (u ++ r ++ w)) := ⟨hbare.1, opensComment_seam hw hopen⟩
  rw [List.append_assoc] at hform' hbare'
  refine ⟨⟨a.position, gap ++ c :: (u ++ (r ++ w))⟩, _, ⟨gap ++ c :: (u ++ r), ?_, ?_, ?_⟩,
    next_of_form (hgap.skips htext) hbare' hform', hsymbol.symm, hu.symm, ?_⟩
  · rw [hgap.text, hu, hrest]
    simp
  · simp
  · -- Before the seam stands the token at least, so it is all that stands there.
    intro hone
    obtain ⟨rfl, rfl, hur⟩ : gap = [] ∧ c = '/' ∧ u ++ r = [] := by
      cases gap <;> simp_all
    rw [hur] at hopen
    exact hopen
  · simp [Token.finish, hgap.start, hu]

/-! ## A new line behind trivia -/

/-- A slash alone is not passed. -/
theorem Skips.ne_slash {gap : List Char} {b : Inside} (h : Skips .nothing gap b) : gap ≠ ['/'] := by
  rintro rfl
  cases h with
  | blank hblank _ => exact absurd hblank (by decide)

/-- The trivia behind a place, in a text that goes on in another way where they end. -/
theorem exists_gap (here : Cursor) :
    ∃ gap v, here.rest = gap ++ v ∧ here.beyond = here.position.after gap ∧ gap ≠ ['/'] ∧
      ∀ w, Fresh w →
        skipTrivia .nothing here.position (gap ++ w) = skipTrivia .nothing here.beyond w := by
  cases hskip : skipTrivia .nothing here.position here.rest with
  | ok there =>
      obtain ⟨gap, b, htext, hplace, -, hskips, hb⟩ := skips_of_ok hskip
      have hbeyond : here.beyond = here.position.after gap := by rw [Cursor.beyond, hskip, ← hplace]
      refine ⟨gap, there.rest, htext, hbeyond, hskips.ne_slash, ?_⟩
      intro w hw
      rw [hbeyond]
      obtain rfl | ⟨rfl, -⟩ := hb
      · exact skipTrivia_gap hskips _ _
      · rw [@skipTrivia_append .nothing .lineComment gap hskips (by decide), skipTrivia_line_fresh hw]
  | error e =>
      obtain ⟨gap, whole, htext, hskips, -, rfl⟩ := skips_of_error hskip
      have hbeyond : here.beyond = here.position.after gap := by rw [Cursor.beyond, hskip]
      refine ⟨gap, whole, htext, hbeyond, hskips.ne_slash, ?_⟩
      intro w _
      rw [hbeyond]
      exact skipTrivia_gap hskips _ _

theorem quotedLine_none {n m : Nat} {cs : List Char} (h : quotedLine n cs = (none, m)) :
    n ≤ m ∧ m ≤ n + cs.length := by
  fun_induction quotedLine n cs <;> grind

theorem quotedText_none {n m : Nat} {cs : List Char} (h : quotedText n cs = (none, m)) :
    n ≤ m ∧ m ≤ n + cs.length := by
  fun_induction quotedText n cs <;> grind

theorem quotedName_none {n m : Nat} {cs : List Char} (h : quotedName n cs = (none, m)) :
    n ≤ m ∧ m ≤ n + cs.length := by
  fun_induction quotedName n cs <;> grind

theorem stringForm_none {rest : List Char} {n : Nat} (h : stringForm rest = (none, n)) :
    0 < n ∧ n ≤ 1 + rest.length := by
  by_cases htext : ∃ body, rest = '"' :: '"' :: body
  · obtain ⟨body, rfl⟩ := htext
    have hle := quotedText_none h
    simp only [List.length_cons]
    omega
  · rw [stringForm_line (fun body hbody => htext ⟨body, hbody⟩)] at h
    have hle := quotedLine_none h
    omega

theorem commonLexeme_none {c : Char} {rest : List Char} {n : Nat} (h : commonLexeme c rest = (none, n)) :
    0 < n ∧ n ≤ 1 + rest.length := by
  unfold commonLexeme at h
  by_cases hletter : c.isAlpha = true
  · rw [if_pos hletter] at h
    cases h
  rw [if_neg hletter] at h
  by_cases hscore : (c = '_' || c = '@') = true
  · rw [if_pos hscore] at h
    have hle := runLength_le isWordChar rest
    have hn : 1 + runLength isWordChar rest = n := congrArg Prod.snd h
    omega
  rw [if_neg hscore] at h
  change (if startsNumber c rest = true then _ else _) = _ at h
  by_cases hnumber : startsNumber c rest = true
  · rw [if_pos hnumber] at h
    cases h
  rw [if_neg hnumber] at h
  by_cases hquote : c = '"'
  · rw [if_pos hquote] at h
    exact stringForm_none h
  rw [if_neg hquote] at h
  by_cases hname : c = backquote
  · rw [if_pos hname] at h
    have hle := quotedName_none h
    omega
  rw [if_neg hname] at h
  by_cases hparameter : c = '?'
  · rw [if_pos hparameter] at h
    cases h
  rw [if_neg hparameter] at h
  obtain rfl := operator_none h
  omega

/-- What is refused is some of the text and no more than all of it. -/
theorem lexeme_none {c : Char} {rest : List Char} {n : Nat} (h : lexeme mode c rest = (none, n)) :
    0 < n ∧ n ≤ 1 + rest.length := by
  unfold lexeme at h
  cases mode with
  | expression => exact commonLexeme_none h
  | pattern | source =>
      dsimp only at h
      split at h
      · cases h
      · exact commonLexeme_none h

/-- **What a fault in place of a token is.** The text at a place is trivia, then what is refused, then what
follows it. -/
theorem next_refused {here : Cursor} {e : SyntaxError} (h : here.next mode = .error e) :
    ∃ gap refused rest, here.rest = gap ++ (refused ++ rest) ∧ refused ≠ [] ∧
      e = ⟨here.position.after gap, .unrecognised refused⟩ := by
  unfold Cursor.next at h
  cases hskip : skipTrivia .nothing here.position here.rest with
  | error e' =>
      rw [hskip] at h
      cases h
      obtain ⟨gap, whole, htext, -, hopen, rfl⟩ := skips_of_error hskip
      refine ⟨gap, whole, [], by rw [htext, List.append_nil], ?_, rfl⟩
      rintro rfl
      cases hopen
  | ok there =>
      rw [hskip] at h
      change there.token mode = .error e at h
      obtain ⟨gap, b, htext, hplace, -, -, -⟩ := skips_of_ok hskip
      unfold Cursor.token at h
      split at h
      · cases h
      · rename_i c rest hrest
        split at h <;> cases h
        rename_i n hform
        refine ⟨gap, there.rest.take n, there.rest.drop n, by rw [htext, List.take_append_drop], ?_, by rw [hplace]⟩
        have hpos := (lexeme_none hform).1
        rw [hrest, ne_eq, List.take_eq_nil_iff]
        rintro (hzero | hnil)
        · omega
        · cases hnil

/-- A fault in place of a token lies where all trivia end. -/
theorem next_error {here : Cursor} {e : SyntaxError} (h : here.next mode = .error e) :
    e.position = here.beyond := by
  unfold Cursor.next at h
  unfold Cursor.beyond
  cases hskip : skipTrivia .nothing here.position here.rest with
  | error e' =>
      rw [hskip] at h
      cases h
      rfl
  | ok there =>
      rw [hskip] at h
      change there.token mode = .error e at h
      unfold Cursor.token at h
      split at h
      · cases h
      · split at h <;> cases h
        rfl

/-! ## Words that are written into a text -/

theorem spaced_fresh (h : Fresh w) : Spaced w := by
  obtain rfl | hhead := h
  · intro c hc
    cases hc
  · intro c hc
    rw [hhead] at hc
    cases hc
    decide

/-- A word that is a token by itself is that token wherever it stands between blanks. -/
theorem next_word {c blank : Char} {kind : Kind} (hform : lexeme mode c u = (some kind, 1 + u.length))
    (hbare : Bare (c :: u)) (hblank : isBlank blank = true) (hw : Spaced w) (p : Position) :
    (Cursor.mk p (blank :: (c :: (u ++ w)))).next mode
      = .ok ⟨.ofText kind (c :: u), c :: u, p.advance blank, w⟩ := by
  have hopen : opensComment (c :: (u ++ [])) = false := by
    rw [List.append_nil]
    exact hbare.2
  have hform' : lexeme mode c (u ++ w) = (some kind, 1 + u.length) := by
    refine lexeme_seam hw ?_ (Nat.le_refl _) hopen ?_
    · rw [List.append_nil]
      exact hform
    · intro h
      rw [Nat.add_sub_cancel_left, List.drop_length] at h
      cases h
  have hbare' : Bare (c :: (u ++ w)) := ⟨hbare.1, opensComment_seam hw hopen⟩
  exact next_of_form (p := p) (.blank hblank .done) hbare' hform'

end Esql.Syntax
