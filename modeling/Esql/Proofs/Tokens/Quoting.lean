import Esql.Proofs.Tokens.Modes

/-!
# `Proofs.Tokens.Quoting` — quoted texts end where they were closed

Any text can be put between quotes so that it makes up one token, whatever it holds and whatever follows: on one
line with a backslash in front of quotes and backslashes, or between backquotes with the backquotes doubled. Nothing
in the text closes the token early, and nothing behind the closing quote is drawn into it (`quoted_whole`). Three
quotes need no such care, but not every text can stand between them: the token ends with the first three quotes in a
row, and these may begin inside the text.

Each form is closed at the first place where its quote stands for itself, so it is enough to see that the walk of the
reader arrives at the closing quote (`quotedLine_escaped`, `quotedName_doubled`), or that it passes the text exactly
if no three quotes begin in it (`quotedText_iff`).

## Contents
- `onLine`, `inBackquotes` and `onLines`, texts between quotes.
- `IsWhole`, a piece of a text that is one token.
- How each form is walked over, and `quoted_whole`.
-/

namespace Esql.Syntax

open Esql.Text (Position isBlank)

variable {mode : Mode} {kind : Kind} {before rest s : List Char}

/-! ## Texts between quotes -/

/-- A character inside a string on one line. -/
def escaped (c : Char) : List Char := if c = '\\' ∨ c = '"' then ['\\', c] else [c]

/-- A text as a string on one line. -/
def onLine (s : List Char) : List Char := '"' :: (s.flatMap escaped ++ ['"'])

/-- A character inside a quoted identifier. -/
def doubled (c : Char) : List Char := if c = backquote then [c, c] else [c]

/-- A text as a quoted identifier. -/
def inBackquotes (s : List Char) : List Char := backquote :: (s.flatMap doubled ++ [backquote])

/-- Three quotes in a row. -/
def tripleQuote : List Char := ['"', '"', '"']

/-- A text as a string on any number of lines. -/
def onLines (s : List Char) : List Char := tripleQuote ++ (s ++ tripleQuote)

/-- No three quotes in a row begin in the text when it is followed by three quotes. -/
def ClosesAtEnd (s : List Char) : Prop :=
  ∀ inside after, s ++ tripleQuote = inside ++ (tripleQuote ++ after) → s.length ≤ inside.length

/-! ## Pieces that are tokens -/

/-- Behind `before` stands a token of this kind that covers `text` and nothing else: the next token is looked for at
    the place behind `text`, which is given by its line and column, and in what follows there. -/
def IsWhole (mode : Mode) (kind : Kind) (before text rest : List Char) : Prop :=
  ∃ token, Cursor.next mode ⟨Position.start.after before, text ++ rest⟩ = .ok token ∧
    token.kind = kind ∧ token.text = text ∧ token.start = Position.start.after before ∧
    token.finish = ⟨⟨1 + (before ++ text).count '\n', (lastLine (before ++ text)).length⟩, rest⟩

/-- A piece that no trivia begin is a token if the form that begins there is as long as the piece. -/
theorem isWhole_iff {c : Char} {u : List Char} (hbare : Bare (c :: (u ++ rest))) :
    IsWhole mode kind before (c :: u) rest ↔ lexeme mode c (u ++ rest) = (some kind, 1 + u.length) := by
  constructor
  · rintro ⟨token, hnext, hkind, htext, -, -⟩
    unfold Cursor.next at hnext
    rw [List.cons_append, skipTrivia_bare hbare] at hnext
    obtain ⟨k, n, hform, rfl⟩ := token_cons hnext
    -- The text of the token is as long as its form, since no form reaches beyond the text.
    have hle := (lexeme_covers hform).le
    have hlength : min n (c :: (u ++ rest)).length = (c :: u).length := by
      rw [← List.length_take]
      exact congrArg List.length htext
    rw [Nat.min_eq_left hle, List.length_cons, Nat.add_comm] at hlength
    subst hlength
    have hk : k = kind := hkind
    rw [hform, hk]
  · intro hform
    refine ⟨⟨.ofText kind (c :: u), c :: u, Position.start.after before, rest⟩, ?_, rfl, rfl, rfl, ?_⟩
    · have hnext := next_of_form (p := Position.start.after before) .done hbare hform
      exact hnext
    · show Cursor.mk ((Position.start.after before).after (c :: u)) rest = _
      rw [← Position.after_append, after_start]

theorem bare_of_quote {c : Char} (h : c = '"' ∨ c = backquote) (cs : List Char) : Bare (c :: cs) := by
  constructor
  · intro d hd
    cases hd
    rcases h with rfl | rfl <;> decide
  · rcases h with rfl | rfl <;> rfl

/-- A quote begins a string in every mode. -/
theorem isWhole_string_iff {u : List Char} :
    IsWhole mode .string before ('"' :: u) rest ↔ stringForm (u ++ rest) = (some .string, 1 + u.length) := by
  rw [isWhole_iff (bare_of_quote (.inl rfl) _), lexeme_sharpChar (by decide)]
  exact Iff.rfl

/-- A backquote begins a quoted identifier, unless it may belong to an index pattern. -/
theorem isWhole_name_iff (hmode : mode ≠ .source) {u : List Char} :
    IsWhole mode .quotedIdentifier before (backquote :: u) rest ↔
      quotedName 1 (u ++ rest) = (some .quotedIdentifier, 1 + u.length) := by
  rw [isWhole_iff (bare_of_quote (.inr rfl) _)]
  cases mode with
  | source => contradiction
  | expression | pattern => exact Iff.rfl

/-! ## Strings on one line -/

/-- An escaped character is passed as a whole. -/
theorem quotedLine_escapedChar {c : Char} (hfeed : c ≠ '\n') (hreturn : c ≠ '\r') (n : Nat) (cs : List Char) :
    quotedLine n (escaped c ++ cs) = quotedLine (n + (escaped c).length) cs := by
  unfold escaped
  by_cases hc : c = '\\' ∨ c = '"'
  · rw [if_pos hc]
    show quotedLine n ('\\' :: c :: cs) = quotedLine (n + 2) cs
    rw [quotedLine, if_neg (by simp [hfeed, hreturn])]
  · rw [if_neg hc]
    rw [not_or] at hc
    show quotedLine n (c :: cs) = quotedLine (n + 1) cs
    rw [quotedLine_char hc.2 hc.1, if_neg (by simp [hfeed, hreturn])]

/-- The walk arrives at the closing quote. -/
theorem quotedLine_escaped (hfeed : '\n' ∉ s) (hreturn : '\r' ∉ s) (n : Nat) (rest : List Char) :
    quotedLine n (s.flatMap escaped ++ '"' :: rest) = (some .string, n + (s.flatMap escaped).length + 1) := by
  induction s generalizing n with
  | nil => rfl
  | cons c s ih =>
      rw [List.mem_cons, not_or] at hfeed hreturn
      rw [List.flatMap_cons, List.append_assoc, quotedLine_escapedChar (Ne.symm hfeed.1) (Ne.symm hreturn.1),
        ih hfeed.2 hreturn.2, List.length_append, Nat.add_assoc n]

/-- The three quotes with which a string of several lines begins do not come about: an escaped text begins with no
    quote, and where it is empty, what follows does not. -/
theorem onLine_not_text (h : s = [] → rest.head? ≠ some '"') (body : List Char) :
    s.flatMap escaped ++ '"' :: rest ≠ '"' :: '"' :: body := by
  intro heq
  cases s with
  | nil =>
      have hrest : rest = '"' :: body := (List.cons.inj heq).2
      exact h rfl (by rw [hrest]; rfl)
  | cons c s =>
      rw [List.flatMap_cons, List.append_assoc] at heq
      unfold escaped at heq
      by_cases hc : c = '\\' ∨ c = '"'
      · rw [if_pos hc] at heq
        cases heq
      · rw [if_neg hc] at heq
        exact hc (.inr (List.cons.inj heq).1)

theorem isWhole_onLine (hfeed : '\n' ∉ s) (hreturn : '\r' ∉ s) (h : s = [] → rest.head? ≠ some '"') :
    IsWhole mode .string before (onLine s) rest := by
  apply isWhole_string_iff.mpr
  have htext : s.flatMap escaped ++ ['"'] ++ rest = s.flatMap escaped ++ '"' :: rest := by simp
  rw [htext, stringForm_line (onLine_not_text h), quotedLine_escaped hfeed hreturn, List.length_append]
  rfl

/-! ## Quoted identifiers -/

theorem quotedName_doubledChar (c : Char) (n : Nat) (cs : List Char) :
    quotedName n (doubled c ++ cs) = quotedName (n + (doubled c).length) cs := by
  unfold doubled
  by_cases hc : c = backquote
  · subst hc
    rfl
  · rw [if_neg hc]
    exact quotedName_char hc n cs

/-- The walk arrives at the closing quote, which nothing behind it doubles. -/
theorem quotedName_doubled (h : rest.head? ≠ some backquote) (n : Nat) (s : List Char) :
    quotedName n (s.flatMap doubled ++ backquote :: rest) =
      (some .quotedIdentifier, n + (s.flatMap doubled).length + 1) := by
  induction s generalizing n with
  | nil => exact quotedName_close h n
  | cons c s ih =>
      rw [List.flatMap_cons, List.append_assoc, quotedName_doubledChar, ih, List.length_append, Nat.add_assoc n]

theorem isWhole_inBackquotes (hmode : mode ≠ .source) (h : rest.head? ≠ some backquote) (s : List Char) :
    IsWhole mode .quotedIdentifier before (inBackquotes s) rest := by
  apply (isWhole_name_iff hmode).mpr
  have htext : s.flatMap doubled ++ [backquote] ++ rest = s.flatMap doubled ++ backquote :: rest := by simp
  rw [htext, quotedName_doubled h, List.length_append]
  rfl

/-! ## Strings on several lines -/

/-- Three characters at least stand where a text is followed by three quotes. -/
theorem exists_three (s rest : List Char) : ∃ b c more, s ++ (tripleQuote ++ rest) = b :: c :: more ∧
    ∃ more', s ++ tripleQuote = b :: c :: more' := by
  match s with
  | [] => exact ⟨'"', '"', _, rfl, _, rfl⟩
  | [b] => exact ⟨b, '"', _, rfl, _, rfl⟩
  | b :: c :: s => exact ⟨b, c, _, rfl, _, rfl⟩

/-- Three quotes that begin in front of the end of a text close it too early. -/
theorem not_closesAtEnd {c : Char} {after : List Char} (h : c :: s ++ tripleQuote = tripleQuote ++ after) :
    ¬ ClosesAtEnd (c :: s) := by
  intro hcloses
  have hle : (c :: s).length ≤ 0 := hcloses [] after h
  exact Nat.not_succ_le_zero _ hle

/-- By induction on the text: the walk goes on over its first character exactly if no three quotes begin there. -/
theorem quotedText_iff (n : Nat) (s rest : List Char) :
    quotedText n (s ++ (tripleQuote ++ rest)) = (some .string, n + s.length + 3) ↔ ClosesAtEnd s := by
  induction s generalizing n with
  | nil => exact ⟨fun _ _ _ _ => Nat.zero_le _, fun _ => quotedText_close n⟩
  | cons a s ih =>
      obtain ⟨b, c, more, hmore, more', hmore'⟩ := exists_three s rest
      rw [List.cons_append, hmore]
      by_cases hquotes : a = '"' ∧ b = '"' ∧ c = '"'
      · obtain ⟨rfl, rfl, rfl⟩ := hquotes
        have hbegins : '"' :: s ++ tripleQuote = tripleQuote ++ more' := by
          rw [List.cons_append, hmore']
          rfl
        refine iff_of_false ?_ (not_closesAtEnd hbegins)
        rw [quotedText_close]
        intro heq
        have hlength := congrArg Prod.snd heq
        simp only [List.length_cons] at hlength
        omega
      · have hnext := ih (n + 1)
        have hlength : n + (a :: s).length + 3 = n + 1 + s.length + 3 := by
          rw [List.length_cons]
          omega
        rw [hmore] at hnext
        rw [quotedText_cons hquotes, hlength, hnext]
        constructor
        · intro hcloses inside after heq
          cases inside with
          | nil =>
              rw [List.cons_append, hmore'] at heq
              cases heq
              exact absurd ⟨rfl, rfl, rfl⟩ hquotes
          | cons x inside => exact Nat.succ_le_succ (hcloses inside after (List.cons.inj heq).2)
        · intro hcloses inside after heq
          have hle := hcloses (a :: inside) after (congrArg (a :: ·) heq)
          exact Nat.le_of_succ_le_succ hle

theorem isWhole_onLines_iff : IsWhole mode .string before (onLines s) rest ↔ ClosesAtEnd s := by
  show IsWhole mode .string before ('"' :: '"' :: '"' :: (s ++ tripleQuote)) rest ↔ _
  rw [isWhole_string_iff]
  show quotedText 3 (s ++ tripleQuote ++ rest) = _ ↔ _
  have hlength : 1 + ('"' :: '"' :: (s ++ tripleQuote)).length = 3 + s.length + 3 := by
    simp [tripleQuote]
    omega
  rw [List.append_assoc, hlength, quotedText_iff]

/-! ## All forms -/

/-- **Quoting is safe.** Whatever a text holds and whatever follows, between its quotes it is one token that ends just
    behind the closing quote: on one line, where quotes and backslashes are escaped, unless the text is empty and
    a third quote follows; between backquotes, where they are doubled, unless one more follows; and between three
    quotes exactly if no three quotes begin in the text. -/
theorem quoted_whole (mode : Mode) (hmode : mode ≠ .source) (before s rest : List Char) :
    ('\n' ∉ s → '\r' ∉ s → (s = [] → rest.head? ≠ some '"') → IsWhole mode .string before (onLine s) rest) ∧
      (rest.head? ≠ some backquote → IsWhole mode .quotedIdentifier before (inBackquotes s) rest) ∧
      (IsWhole mode .string before (onLines s) rest ↔ ClosesAtEnd s) :=
  ⟨isWhole_onLine, fun h => isWhole_inBackquotes hmode h s, isWhole_onLines_iff⟩

/-- A text that would close every form, with a quote behind it. -/
theorem quoted_whole_backslashQuote :
    let s := ['\\', '"', backquote]
    Mode.expression ≠ .source ∧ '\n' ∉ s ∧ '\r' ∉ s ∧ (s = [] → ['"'].head? ≠ some '"') ∧
      IsWhole .expression .string ['\n'] (onLine s) ['"'] ∧
      IsWhole .expression .quotedIdentifier ['\n'] (inBackquotes s) ['"'] ∧
      (IsWhole .expression .string ['\n'] (onLines s) ['"'] ↔ ClosesAtEnd s) := by
  intro s
  obtain ⟨hline, hname, htext⟩ := quoted_whole .expression (by decide) ['\n'] s ['"']
  exact ⟨by decide, by decide, by decide, by decide, hline (by decide) (by decide) (by decide), hname (by decide),
    htext⟩

end Esql.Syntax
