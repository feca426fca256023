import Esql.Proofs.Recognizer.Expected
import Mathlib.Data.List.Induction

/-!
# `Proofs.Recognizer.Located` — a fault is where its text stands

A diagnostic gives a place by line and column and quotes a piece of the text. The two belong together: the
piece begins at the place, or the end of the text is quoted and the place is behind the last character
(`fault_located`). For that, whatever the recognizer looks at is followed back to where it was cut off the text:
a token or a fault is a piece of the text between two of its characters (`token_at`, `refused_at`), and so is
the opener that is remembered for a level of nesting (`Shows`).

## Contents
- `PieceAt`: pieces of a text, for every look at a place in it.
- `Quotes`: what a message quotes.
- `Remembers`, and `fault_located`.
-/

namespace Esql.Syntax

open State
open Esql.Text (Position)
open Relation (ReflTransGen)

variable {limit : Nat} {mode : Mode} {s s' : State} {text : List Char}

/-! ## Pieces -/

/-- A piece of a text that begins at a place. -/
def PieceAt (text : List Char) (place : Position) (piece : List Char) : Prop :=
  ∃ before after, text = before ++ (piece ++ after) ∧ place = Position.start.after before

/-- A token that was cut off a text: a piece of it, or the end of the text. -/
def Shows (text : List Char) (token : Token) : Prop :=
  ∃ before, text = before ++ (token.text ++ token.rest) ∧ token.start = Position.start.after before ∧
    (token.kind = .endOfText ↔ token.text = []) ∧ (token.text = [] → token.rest = [])

/-- A look at a place in a text cuts a token off it. -/
theorem token_at {here : Cursor} {token : Token} (hin : here.IsIn text) (h : here.next mode = .ok token) :
    Shows text token := by
  obtain ⟨gap, hgap⟩ := next_ok h
  obtain ⟨q, htext, hplace⟩ := hin
  refine ⟨q ++ gap, ?_, ?_, kind_eq_endOfText_iff h, fun hnil => ?_⟩
  · rw [htext, hgap.text, List.append_assoc]
  · rw [hgap.start, hplace, Position.after_append]
  · obtain hend | ⟨c, u, kind, hu, -⟩ := hgap.form
    · rw [hend]
      rfl
    · rw [hu] at hnil
      cases hnil

theorem Shows.pieceAt {token : Token} (h : Shows text token) : PieceAt text token.start token.text := by
  obtain ⟨before, htext, hplace, -⟩ := h
  exact ⟨before, token.rest, htext, hplace⟩

theorem Shows.isIn {token : Token} (h : Shows text token) : token.finish.IsIn text := by
  obtain ⟨before, htext, hplace, -⟩ := h
  refine ⟨before ++ token.text, ?_, ?_⟩
  · rw [htext, List.append_assoc]
    rfl
  · rw [Token.finish, hplace, Position.after_append]

/-- A fault at a place in a text is a piece of it that has no form. -/
theorem refused_at {here : Cursor} {e : SyntaxError} (hin : here.IsIn text) (h : here.next mode = .error e) :
    ∃ refused, refused ≠ [] ∧ e.cause = .unrecognised refused ∧ PieceAt text e.position refused := by
  obtain ⟨gap, refused, rest, hrest, hne, rfl⟩ := next_refused h
  obtain ⟨q, htext, hplace⟩ := hin
  refine ⟨refused, hne, rfl, q ++ gap, rest, ?_, ?_⟩
  · rw [htext, hrest, List.append_assoc]
  · show here.position.after gap = _
    rw [hplace, Position.after_append]

/-! ## Quotes -/

/-- The text that a cause quotes. -/
def Cause.quoted : Cause → String
  | unrecognised text => String.ofList text
  | mismatched found _ => found
  | tooDeep _ opener => opener

/-- A message of one of three forms, and the text between its quotes. -/
inductive Quotes (quoted : String) : String → Prop where
  | unrecognised : Quotes quoted ("token recognition error at: '" ++ quoted ++ "'")
  | mismatched (expected : String) :
      Quotes quoted ("mismatched input '" ++ quoted ++ "' expecting " ++ expected)
  | tooDeep (limit : Nat) :
      Quotes quoted
        ("expression nested deeper than " ++ toString limit ++ " levels at input '" ++ quoted ++ "'")

/-- A message is of one of the forms, if something was expected where a token does not fit. -/
theorem message_quotes {cause : Cause} (h : ∀ found expected, cause = .mismatched found expected → expected ≠ []) :
    Quotes cause.quoted cause.message := by
  cases cause with
  | unrecognised text => exact .unrecognised
  | tooDeep limit opener => exact .tooDeep limit
  | mismatched found expected =>
      have hlabels : labels expected ≠ [] := by
        obtain ⟨t, ht⟩ := List.exists_mem_of_ne_nil _ (h found expected rfl)
        exact List.ne_nil_of_mem (mem_labels.mpr ⟨t, ht, rfl⟩)
      unfold Cause.message Cause.quoted
      dsimp only
      split
      · contradiction
      · exact .mismatched _
      · have hform : Quotes found _ := .mismatched ("\x7b" ++ (String.intercalate ", " (labels expected) ++ "\x7d"))
        have hbrace : "' expecting \x7b" = "' expecting " ++ "\x7b" := rfl
        rw [hbrace]
        simpa only [String.append_assoc] using hform

/-- What a diagnostic shows for a piece of the text: the piece, or a name for the end of the text. -/
def shownPiece (piece : List Char) : String := if piece = [] then "<EOF>" else String.ofList piece

theorem Shows.shown {token : Token} (h : Shows text token) : token.shown = shownPiece token.text := by
  obtain ⟨-, -, -, hend, -⟩ := h
  unfold Token.shown shownPiece
  by_cases hkind : token.kind = .endOfText
  · rw [if_pos hkind, if_pos (hend.mp hkind)]
    rfl
  · rw [if_neg hkind, if_neg fun hnil => hkind (hend.mpr hnil)]

/-! ## Runs -/

/-- The opener that is blamed at the next level is a token of the text, unless another is remembered before. -/
def Remembers (text : List Char) (s : State) : Prop := s.plan.guarded = true ∨ Shows text s.opener

theorem Moves.remembers (h : Moves limit s s') (hopen : s.Open) (hin : s.cursor.IsIn text)
    (hs : Remembers text s) : Remembers text s' :=
  h.blames hopen hs fun _ _ _ hnext => token_at hin hnext

theorem runs_remember (h : ReflTransGen (Moves limit) (start text) s) : Remembers text s := by
  induction h with
  | refl => exact .inl (Rule.guarded .statement)
  | tail hruns hmoves ih => exact hmoves.remembers (runs_open hruns) (runs_viable hruns).isIn ih

/-- A fault quotes the piece of the text that begins at its place. -/
def LocatedIn (text : List Char) (e : SyntaxError) : Prop :=
  ∃ before piece after, text = before ++ (piece ++ after) ∧ e.position = Position.start.after before ∧
    e.cause.quoted = shownPiece piece ∧ (piece = [] → after = [])

theorem Shows.locatedIn {token : Token} (h : Shows text token) {cause : Cause}
    (hquoted : cause.quoted = token.shown) : LocatedIn text ⟨token.start, cause⟩ := by
  obtain ⟨before, htext, hplace, -, hrest⟩ := id h
  exact ⟨before, token.text, token.rest, htext, hplace, hquoted.trans h.shown, hrest⟩

/-- Where a run stops at a fault, the fault is located in the text. -/
theorem Stops.located {e : SyntaxError} (h : Stops limit s (.error e)) (hin : s.cursor.IsIn text)
    (hs : Remembers text s) : LocatedIn text e := by
  cases h with
  | unrecognised _ hnext =>
      obtain ⟨refused, hne, hcause, before, after, htext, hplace⟩ := refused_at hin hnext
      refine ⟨before, refused, after, htext, hplace, ?_, fun hnil => absurd hnil hne⟩
      rw [hcause, Cause.quoted, shownPiece, if_neg hne]
  | mismatch _ hnext => exact (token_at hin hnext).locatedIn rfl
  | tooDeep hplan _ =>
      refine (hs.resolve_left ?_).locatedIn rfl
      rw [hplan]
      exact Bool.false_ne_true

/-- **A fault is where its text stands.** The line and the column of a fault count the text in front of a piece
of the text, and the message quotes just that piece; or the whole text stands in front, and the message quotes
its end. On the way the recognizer stands at places of the text only, and all that is cut off there is a piece
of the text. -/
theorem fault_located {t : String} {e : SyntaxError} (h : check t = .error e) :
    (∃ before piece after, t.toList = before ++ (piece ++ after) ∧
      e.position = ⟨1 + before.count '\n', (lastLine before).length⟩ ∧ Quotes (shownPiece piece) e.message ∧
      (piece = [] → after = [])) ∧
    (∀ s, Reaches {} (start t.toList) s → s.cursor.IsIn t.toList) ∧
    (∀ (here : Cursor) (mode : Mode), here.IsIn t.toList →
      (∀ token : Token, here.next mode = .ok token →
        PieceAt t.toList token.start token.text ∧ token.finish.IsIn t.toList) ∧
      (∀ fault : SyntaxError, here.next mode = .error fault →
        ∃ refused, refused ≠ [] ∧ fault.cause = .unrecognised refused ∧
          PieceAt t.toList fault.position refused)) := by
  refine ⟨?_, fun s hs => ?_, fun here mode hin => ⟨fun token hnext => ?_, fun fault => refused_at hin⟩⟩
  · obtain ⟨s, hruns, hstops⟩ := checkBy_stops {} t.toList
    rw [show checkBy {} t.toList = .error e from h] at hstops
    obtain ⟨before, piece, after, htext, hplace, hquoted, hrest⟩ :=
      hstops.located (runs_viable hruns).isIn (runs_remember hruns)
    refine ⟨before, piece, after, htext, hplace.trans (after_start before), ?_, hrest⟩
    rw [← hquoted]
    refine message_quotes fun found expected hcause => ?_
    obtain ⟨place, cause⟩ := e
    cases hcause
    exact hstops.expects (runs_expecting hruns)
  · exact (runs_viable (hs.moves (start_coherent t.toList)).1).isIn
  · exact ⟨(token_at hin hnext).pieceAt, (token_at hin hnext).isIn⟩

theorem fault_located_on_second_line :
    check "show\n  info é" = .error ⟨⟨2, 7⟩, .unrecognised ['é']⟩ ∧
      ∃ before piece after, "show\n  info é".toList = before ++ (piece ++ after) ∧
        (⟨2, 7⟩ : Position) = ⟨1 + before.count '\n', (lastLine before).length⟩ ∧
        Quotes (shownPiece piece) (Cause.message (.unrecognised ['é'])) ∧ (piece = [] → after = []) := by
  have h : check "show\n  info é" = .error ⟨⟨2, 7⟩, .unrecognised ['é']⟩ := by rfl
  exact ⟨h, (fault_located h).1⟩

end Esql.Syntax
