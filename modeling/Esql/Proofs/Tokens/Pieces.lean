import Esql.Proofs.Tokens.Extent

/-!
# `Proofs.Tokens.Pieces` — a text is cut without loss

Whoever asks for one token behind the other, in whatever modes, is given the text piece by piece: trivia and a token,
trivia and a token, until only trivia are left or a fault is met (`cut_lossless`). No character is lost between the
pieces, none is read twice, and every piece takes a character at least, so there are no more pieces than characters.

The trivia are those of the language, blanks and whole comments (`Trivia`). How a walk passes them is said character by
character in `Skips`, which does not show that a comment is closed; so the two are compared first.

## Contents
- `Trivia`: what a look at the next token passes, and when nothing else is left.
- `Cuts`: tokens that are cut off one behind the other.
- `Piece`: a token and the trivia in front of it, and where it lies in a text.
- `RunsOut`, and `cut_lossless`.
-/

namespace Esql.Syntax

open Esql.Text (Position isBlank)

variable {mode : Mode} {modes : List Mode} {here a b : Cursor} {token : Token} {tokens tokens' : List Token}
  {text gap rest : List Char}

/-! ## Trivia -/

/-- Two slashes and the rest of the line. -/
def IsLineComment (cs : List Char) : Prop := ∃ body, cs = '/' :: '/' :: body ∧ '\n' ∉ body

/-- A comment that is closed at its end and not before. -/
def IsBlockComment (cs : List Char) : Prop :=
  ∃ body, cs = '/' :: '*' :: (body ++ ['*', '/']) ∧ ¬ ['*', '/'] <:+: body

/-- Blanks and whole comments, where the text goes on with `rest`. A comment that ends with its line ends at the line
    feed, or where the text is over. -/
inductive Trivia (rest : List Char) : List Char → Prop where
  | nothing : Trivia rest []
  | blank {c : Char} {gap : List Char} : isBlank c = true → Trivia rest gap → Trivia rest (c :: gap)
  | line {comment gap : List Char} : IsLineComment comment → Fresh (gap ++ rest) → Trivia rest gap →
      Trivia rest (comment ++ gap)
  | block {comment gap : List Char} : IsBlockComment comment → Trivia rest gap → Trivia rest (comment ++ gap)

/-- What is left of trivia for a walk that is inside of a comment: the end of the comment comes first. -/
def Inside.Leaves (rest : List Char) : Inside → List Char → Prop
  | nothing, gap => Trivia rest gap
  | line, gap => ∃ body gap', gap = body ++ gap' ∧ '\n' ∉ body ∧ Fresh (gap' ++ rest) ∧ Trivia rest gap'
  | block, gap => ∃ body gap', gap = body ++ '*' :: '/' :: gap' ∧ ¬ ['*', '/'] <:+: body ∧ Trivia rest gap'

/-- What a walk passes is trivia, if it ends outside of comments or with the text. -/
theorem Skips.leaves {around around' : Inside} (h : Skips around gap around')
    (hend : around' = .nothing ∨ (around' = .line ∧ rest = [])) : around.Leaves rest gap := by
  induction h with
  | done =>
      rcases hend with rfl | ⟨rfl, rfl⟩
      · exact .nothing
      · exact ⟨[], [], rfl, List.not_mem_nil, .inl rfl, .nothing⟩
  | blank hblank _ ih => exact .blank hblank (ih hend)
  | openLine _ ih =>
      obtain ⟨body, gap', rfl, hbody, hfresh, hgap⟩ := ih hend
      have hcomment : IsLineComment ('/' :: '/' :: body) := ⟨body, rfl, hbody⟩
      exact .line hcomment hfresh hgap
  | openBlock _ ih =>
      obtain ⟨body, gap', rfl, hbody, hgap⟩ := ih hend
      have htrivia := Trivia.block ⟨body, rfl, hbody⟩ hgap
      rwa [List.cons_append, List.cons_append, List.append_assoc] at htrivia
  | inLine hc _ ih =>
      obtain ⟨body, gap', rfl, hbody, hfresh, hgap⟩ := ih hend
      exact ⟨_ :: body, gap', rfl, List.not_mem_cons_of_ne_of_not_mem (Ne.symm hc) hbody, hfresh, hgap⟩
  | endLine _ ih => exact ⟨[], _, rfl, List.not_mem_nil, .inr rfl, .blank (by decide) (ih hend)⟩
  | @inBlock c _ _ hc _ ih =>
      obtain ⟨body, gap', rfl, hbody, hgap⟩ := ih hend
      refine ⟨c :: body, gap', rfl, fun hclosed => ?_, hgap⟩
      -- The comment is closed neither inside of the body nor at the character in front of it.
      rcases List.infix_cons_iff.mp hclosed with ⟨more, hmore⟩ | hclosed
      · obtain ⟨rfl, hbody⟩ := List.cons.inj hmore
        exact hc rfl (by rw [← hbody]; rfl)
      · exact hbody hclosed
  | endBlock _ ih => exact ⟨[], _, rfl, by simp, ih hend⟩

/-- A walk inside of a comment goes on to its end. -/
theorem skips_body {body : List Char} (h : ¬ ['*', '/'] <:+: body) :
    Skips .block (body ++ ['*', '/']) .nothing := by
  induction body with
  | nil => exact .endBlock .done
  | cons c body ih =>
      refine .inBlock (fun hc hslash => h ?_) (ih fun hclosed => h (List.infix_cons hclosed))
      subst hc
      cases body with
      | nil => cases hslash
      | cons d body =>
          obtain rfl : d = '/' := Option.some.inj hslash
          exact List.IsPrefix.isInfix ⟨body, rfl⟩

theorem skips_line {body : List Char} (h : '\n' ∉ body) : Skips .line body .line := by
  induction body with
  | nil => exact .done
  | cons c body ih =>
      rw [List.mem_cons, not_or] at h
      exact .inLine (Ne.symm h.1) (ih h.2)

/-- Trivia are passed. -/
theorem Trivia.passed (h : Trivia rest gap) (p : Position) :
    skipTrivia .nothing p (gap ++ rest) = skipTrivia .nothing (p.after gap) rest := by
  induction h generalizing p with
  | nothing => rfl
  | blank hblank _ ih => rw [List.cons_append, skipTrivia_blank hblank, ih, Position.after_cons]
  | @line comment gap hcomment hfresh _ ih =>
      obtain ⟨body, rfl, hbody⟩ := hcomment
      have hopens : Skips .nothing ('/' :: '/' :: body) .line := .openLine (skips_line hbody)
      rw [List.append_assoc, @skipTrivia_append .nothing .lineComment _ hopens (by decide),
        skipTrivia_line_fresh hfresh, ih, Position.after_append]
  | @block comment gap hcomment _ ih =>
      obtain ⟨body, rfl, hbody⟩ := hcomment
      have hopens : Skips .nothing ('/' :: '*' :: (body ++ ['*', '/'])) .nothing := .openBlock (skips_body hbody)
      rw [List.append_assoc, @skipTrivia_append .nothing .nothing _ hopens (by decide), ih, Position.after_append]

/-- Behind all trivia a walk has passed trivia only. -/
theorem trivia_of_ok {p : Position} {cs : List Char} {there : Cursor} (h : skipTrivia .nothing p cs = .ok there) :
    ∃ gap, cs = gap ++ there.rest ∧ there.position = p.after gap ∧ Trivia there.rest gap := by
  obtain ⟨gap, b, htext, hplace, -, hskips, hend⟩ := skips_of_ok h
  exact ⟨gap, htext, hplace, hskips.leaves hend⟩

/-- In front of a token stand trivia only. -/
theorem trivia_of_next (h : here.next mode = .ok token) :
    ∃ gap, here.rest = gap ++ (token.text ++ token.rest) ∧ token.start = here.position.after gap ∧
      Trivia (token.text ++ token.rest) gap := by
  obtain ⟨gap, hgap⟩ := next_ok h
  refine ⟨gap, hgap.text, hgap.start, ?_⟩
  unfold Cursor.next at h
  cases hskip : skipTrivia .nothing here.position here.rest with
  | error e =>
      rw [hskip] at h
      cases h
  | ok there =>
      obtain ⟨gap', htext, hplace, htrivia⟩ := trivia_of_ok hskip
      have hrest : there.rest = token.text ++ token.rest := by
        rw [hskip] at h
        obtain ⟨p, rest⟩ := there
        cases rest with
        | nil =>
            obtain rfl : Token.endOfText p = token := Except.ok.inj h
            rfl
        | cons c rest =>
            obtain ⟨kind, n, -, rfl⟩ := token_cons (show (Cursor.mk p (c :: rest)).token mode = .ok token from h)
            exact (List.take_append_drop n (c :: rest)).symm
      rw [hrest] at htext htrivia
      obtain rfl : gap = gap' := List.append_cancel_right (hgap.text.symm.trans htext)
      exact htrivia

/-! ## The end of the text -/

/-- The end of the text stands behind all that is left. -/
theorem eq_endOfText (h : here.next mode = .ok token) (hkind : token.kind = .endOfText) :
    token = .endOfText (here.position.after here.rest) := by
  obtain ⟨gap, hgap⟩ := next_ok h
  have hnil := (kind_eq_endOfText_iff h).mp hkind
  obtain hend | ⟨c, u, kind, hu, -⟩ := hgap.form
  · have hrest : here.rest = gap := by
      rw [hgap.text, hend]
      exact List.append_nil gap
    rw [hend, hgap.start, hrest]
  · rw [hu] at hnil
    cases hnil

/-- **The end of the text is found exactly where only trivia are left.** -/
theorem finds_end_iff : (∃ token, here.next mode = .ok token ∧ token.kind = .endOfText) ↔ Trivia [] here.rest := by
  constructor
  · rintro ⟨token, hnext, hkind⟩
    obtain ⟨gap, htext, -, htrivia⟩ := trivia_of_next hnext
    rw [eq_endOfText hnext hkind] at htext htrivia
    rw [htext]
    exact (List.append_nil gap).symm ▸ htrivia
  · intro htrivia
    have hskip := htrivia.passed here.position
    rw [List.append_nil] at hskip
    refine ⟨.endOfText (here.position.after here.rest), ?_, rfl⟩
    unfold Cursor.next
    rw [hskip]
    rfl

/-! ## Tokens that are cut off -/

/-- From the place `a` on, tokens are cut off one behind the other, each in the mode that comes next, up to the place
    `b`. The end of the text is none of them. -/
inductive Cuts : Cursor → List Mode → List Token → Cursor → Prop where
  | nothing {a : Cursor} : Cuts a [] [] a
  | token {a b : Cursor} {mode : Mode} {modes : List Mode} {token : Token} {tokens : List Token} :
      a.next mode = .ok token → token.kind ≠ .endOfText → Cuts token.finish modes tokens b →
      Cuts a (mode :: modes) (token :: tokens) b

/-- Every token takes a character at least. -/
theorem Cuts.length_le (h : Cuts a modes tokens b) : tokens.length + b.rest.length ≤ a.rest.length := by
  induction h with
  | nothing => exact Nat.le_of_eq (Nat.zero_add _)
  | token hnext hkind _ ih =>
      have htext := fun hnil => hkind ((kind_eq_endOfText_iff hnext).mpr hnil)
      obtain ⟨gap, hrest, -, -⟩ := trivia_of_next hnext
      have hpos := List.length_pos_iff.mpr htext
      simp only [hrest, Token.finish, List.length_append, List.length_cons] at ih ⊢
      omega

theorem Cuts.append {modes' : List Mode} {c : Cursor} (h : Cuts a modes tokens b) (h' : Cuts b modes' tokens' c) :
    Cuts a (modes ++ modes') (tokens ++ tokens') c := by
  induction h with
  | nothing => exact h'
  | token hnext hkind _ ih => exact .token hnext hkind (ih h')

/-! ## Pieces -/

/-- A token and what stands between it and the token before. -/
structure Piece where
  gap : List Char
  token : Token

/-- The characters of a piece. -/
def Piece.chars (piece : Piece) : List Char := piece.gap ++ piece.token.text

/-- The characters of some pieces, one piece behind the other. -/
def together (pieces : List Piece) : List Char := pieces.flatMap Piece.chars

/-- The line and the column of the place behind some characters of a text. -/
def placeBehind (cs : List Char) : Position := ⟨1 + cs.count '\n', (lastLine cs).length⟩

/-- In a text, behind the characters `before`, stands a piece: trivia, and behind them a token that is not empty. The
    token covers just what stands between its start and its end, and these have the line and the column of the places
    that they mark. -/
structure Piece.LiesBehind (text before : List Char) (piece : Piece) : Prop where
  text : text = before ++ (piece.gap ++ (piece.token.text ++ piece.token.rest))
  gap : Trivia (piece.token.text ++ piece.token.rest) piece.gap
  nonempty : piece.token.text ≠ []
  start : piece.token.start = placeBehind (before ++ piece.gap)
  finish : piece.token.finish = ⟨placeBehind (before ++ piece.chars), piece.token.rest⟩

/-- The piece that is cut off at a place in a text. -/
theorem exists_piece (htext : text = gap ++ here.rest) (hplace : here.position = Position.start.after gap)
    (hnext : here.next mode = .ok token) (hkind : token.kind ≠ .endOfText) :
    ∃ piece : Piece, piece.token = token ∧ piece.LiesBehind text gap := by
  obtain ⟨skipped, hrest, hstart, htrivia⟩ := trivia_of_next hnext
  have hstart' : token.start = Position.start.after (gap ++ skipped) := by
    rw [hstart, hplace, Position.after_append]
  refine ⟨⟨skipped, token⟩, rfl, ?_, htrivia, fun hnil => hkind ((kind_eq_endOfText_iff hnext).mpr hnil), ?_, ?_⟩
  · rw [htext, hrest]
  · rw [hstart', after_start]
    rfl
  · change Cursor.mk (token.start.after token.text) token.rest = _
    rw [hstart', ← Position.after_append, List.append_assoc, after_start]
    rfl

/-- Tokens that are cut off a text are pieces of it with nothing between them. -/
theorem Cuts.pieces (h : Cuts a modes tokens b) (htext : text = gap ++ a.rest)
    (hplace : a.position = Position.start.after gap) :
    ∃ pieces : List Piece, pieces.map Piece.token = tokens ∧ text = gap ++ together pieces ++ b.rest ∧
      b.position = placeBehind (gap ++ together pieces) ∧
      ∀ before piece after, pieces = before ++ piece :: after → piece.LiesBehind text (gap ++ together before) := by
  induction h generalizing gap with
  | nothing =>
      refine ⟨[], rfl, ?_, ?_, fun before piece after h => by cases before <;> cases h⟩
      · rw [htext, together, List.flatMap_nil, List.append_nil]
      · rw [hplace, together, List.flatMap_nil, List.append_nil, after_start]
        rfl
  | token hnext hkind _ ih =>
      obtain ⟨piece, rfl, hlies⟩ := exists_piece htext hplace hnext hkind
      have hfinish := hlies.finish
      have hplace' : piece.token.finish.position = Position.start.after (gap ++ piece.chars) := by
        rw [hfinish, after_start]
        rfl
      have htext' : text = gap ++ piece.chars ++ piece.token.finish.rest := by
        rw [hfinish, Piece.chars, List.append_assoc, List.append_assoc]
        exact hlies.text
      obtain ⟨pieces, rfl, htogether, hend, hall⟩ := ih htext' hplace'
      have hcons : ∀ others, gap ++ together (piece :: others) = gap ++ piece.chars ++ together others := by
        intro others
        rw [together, List.flatMap_cons, List.append_assoc]
        rfl
      refine ⟨piece :: pieces, rfl, by rw [hcons]; exact htogether, by rw [hcons]; exact hend, ?_⟩
      intro before piece' after heq
      cases before with
      | nil =>
          obtain ⟨rfl, -⟩ := List.cons.inj heq
          rw [together, List.flatMap_nil, List.append_nil]
          exact hlies
      | cons first before =>
          obtain ⟨rfl, hrest⟩ := List.cons.inj heq
          rw [hcons]
          exact hall before piece' after hrest

/-! ## Runs -/

/-- From `here` on tokens are cut off, the first in the mode `modes i`, the second in the mode `modes (i + 1)`, and so
    on, up to the place `there` where the run stops: the next look finds the end of the text, or a fault. -/
inductive RunsOut (modes : Nat → Mode) : Nat → Cursor → List Token → Cursor → Prop where
  | stops {i : Nat} {here : Cursor} : (∀ token, here.next (modes i) = .ok token → token.kind = .endOfText) →
      RunsOut modes i here [] here
  | token {i : Nat} {here there : Cursor} {token : Token} {tokens : List Token} :
      here.next (modes i) = .ok token → token.kind ≠ .endOfText → RunsOut modes (i + 1) token.finish tokens there →
      RunsOut modes i here (token :: tokens) there

variable {modes : Nat → Mode} {i : Nat} {there there' : Cursor}

theorem RunsOut.cuts (h : RunsOut modes i here tokens there) : ∃ used, Cuts here used tokens there := by
  induction h with
  | stops => exact ⟨[], .nothing⟩
  | token hnext hkind _ ih =>
      obtain ⟨used, hcuts⟩ := ih
      exact ⟨_ :: used, .token hnext hkind hcuts⟩

theorem RunsOut.last (h : RunsOut modes i here tokens there)
    (hnext : there.next (modes (i + tokens.length)) = .ok token) :
    token.kind = .endOfText := by
  induction h with
  | stops hstops => exact hstops token hnext
  | token _ _ _ ih =>
      rw [List.length_cons, Nat.add_comm _ 1, ← Nat.add_assoc] at hnext
      exact ih hnext

theorem RunsOut.unique (h : RunsOut modes i here tokens there) (h' : RunsOut modes i here tokens' there') :
    tokens = tokens' ∧ there = there' := by
  induction h generalizing tokens' with
  | stops hstops =>
      cases h' with
      | stops => exact ⟨rfl, rfl⟩
      | token hnext hkind _ => exact absurd (hstops _ hnext) hkind
  | token hnext hkind _ ih =>
      cases h' with
      | stops hstops => exact absurd (hstops _ hnext) hkind
      | token hnext' _ hrest =>
          obtain rfl := Except.ok.inj (hnext.symm.trans hnext')
          obtain ⟨rfl, rfl⟩ := ih hrest
          exact ⟨rfl, rfl⟩

/-- By induction on the characters that are left, of which every token takes one: a run stops. -/
theorem exists_runsOut (modes : Nat → Mode) (i : Nat) (here : Cursor) :
    ∃ tokens there, RunsOut modes i here tokens there := by
  generalize hn : here.rest.length = n
  induction n using Nat.strongRecOn generalizing i here with
  | ind n ih =>
      by_cases hstops : ∀ token, here.next (modes i) = .ok token → token.kind = .endOfText
      · exact ⟨[], here, .stops hstops⟩
      · obtain ⟨token, hnot⟩ := Classical.not_forall.mp hstops
        obtain ⟨hnext, hkind⟩ := Classical.not_imp.mp hnot
        have hle := (Cuts.token hnext hkind .nothing).length_le
        rw [List.length_singleton] at hle
        obtain ⟨tokens, there, hrest⟩ := ih token.finish.rest.length (by omega) (i + 1) token.finish rfl
        exact ⟨token :: tokens, there, .token hnext hkind hrest⟩

/-- **A text is cut without loss.** In whatever modes the tokens of a text are asked for, one behind the other, the run
    stops, in one way only, after at most as many tokens as the text has characters. The tokens and the trivia in front
    of them make up the text up to the place where the run stops; each token lies where its start and its end say, which
    have the line and the column of the characters in front of them, and is not empty. The end of the text is found
    exactly where only trivia are left, and stands behind all characters of the text; a fault has the line and the
    column of a piece of the text that is refused. -/
theorem cut_lossless (text : String) (modes : Nat → Mode) :
    ∃ pieces there, RunsOut modes 0 (Cursor.start text.toList) (pieces.map Piece.token) there ∧
      (∀ tokens there', RunsOut modes 0 (Cursor.start text.toList) tokens there' →
        tokens = pieces.map Piece.token ∧ there' = there) ∧
      pieces.length ≤ text.length ∧
      text.toList = together pieces ++ there.rest ∧ there.position = placeBehind (together pieces) ∧
      (∀ before piece after, pieces = before ++ piece :: after → piece.LiesBehind text.toList (together before)) ∧
      (∀ (here : Cursor) (mode : Mode),
        (∃ token, here.next mode = .ok token ∧ token.kind = .endOfText) ↔ Trivia [] here.rest) ∧
      (∀ last, there.next (modes pieces.length) = .ok last → last = .endOfText (placeBehind text.toList)) ∧
      (∀ e, there.next (modes pieces.length) = .error e →
        ∃ gap refused rest, there.rest = gap ++ (refused ++ rest) ∧ refused ≠ [] ∧
          e = ⟨placeBehind (together pieces ++ gap), .unrecognised refused⟩) := by
  obtain ⟨tokens, there, hruns⟩ := exists_runsOut modes 0 (Cursor.start text.toList)
  obtain ⟨used, hcuts⟩ := hruns.cuts
  have hstart : text.toList = [] ++ (Cursor.start text.toList).rest := rfl
  obtain ⟨pieces, rfl, htext, hplace, hlies⟩ := hcuts.pieces hstart rfl
  simp only [List.nil_append] at htext hplace hlies
  have hafter : there.position = Position.start.after (together pieces) := by rw [hplace, after_start]; rfl
  have hlast : ∀ token, there.next (modes pieces.length) = .ok token → token.kind = .endOfText := by
    intro token hnext
    refine hruns.last ?_
    rwa [Nat.zero_add, List.length_map]
  refine ⟨pieces, there, hruns, fun tokens there' h => ?_, ?_, htext, hplace, hlies, fun _ _ => finds_end_iff, ?_, ?_⟩
  · obtain ⟨rfl, rfl⟩ := hruns.unique h
    exact ⟨rfl, rfl⟩
  · have hle := hcuts.length_le
    rw [List.length_map] at hle
    change _ ≤ text.toList.length at hle
    rw [String.length_toList] at hle
    omega
  · intro last hnext
    rw [eq_endOfText hnext (hlast last hnext), hafter, ← Position.after_append, ← htext, after_start]
    rfl
  · intro e hnext
    obtain ⟨gap, refused, rest, hrest, hne, rfl⟩ := next_refused hnext
    refine ⟨gap, refused, rest, hrest, hne, ?_⟩
    rw [hafter, ← Position.after_append, after_start]
    rfl

end Esql.Syntax
