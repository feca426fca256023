import Esql.Proofs.Tokens.Letters
import Esql.Proofs.Tokens.Extent

/-!
# `Proofs.Tokens.Pairing` — two texts that are cut alike

Two places are paired when the texts there are the same but for the case of letters, or are just the same text
at different places. Trivia and tokens do not tell the one from the other: a token that stands at one of the
places stands at the other, it looks the same, and it ends at places that are paired again (`Pairing.next`).
What is paired is given by a relation `K`, so that each use can say where its places lie; the only thing it has
to respect is that one goes on character by character.

## Contents
- `Both`: two results of the same kind.
- `Pairing`, and how paired places go on.
- `TokensPair` and `FaultsPair`; trivia, tokens, and `Pairing.next`.
-/

namespace Esql.Syntax

open Esql.Text (Position isBlank)

/-- Two results of the same kind: values that `R` relates, or faults that `E` relates. -/
inductive Both {α β : Type} (R : α → β → Prop) (E : SyntaxError → SyntaxError → Prop) :
    Except SyntaxError α → Except SyntaxError β → Prop where
  | ok {a b} : R a b → Both R E (.ok a) (.ok b)
  | error {e e'} : E e e' → Both R E (.error e) (.error e')

theorem Both.mono {α β : Type} {R : α → β → Prop} {E E' : SyntaxError → SyntaxError → Prop} {x : Except SyntaxError α}
    {y : Except SyntaxError β} (h : Both R E x y) (hE : ∀ e e', E e e' → E' e e') : Both R E' x y := by
  cases h with
  | ok hr => exact .ok hr
  | error he => exact .error (hE _ _ he)

/-! ## Paired places -/

/-- Places in two texts that go on alike: `f` takes the texts to the same text, and tells letters apart that
have another small letter. -/
structure Pairing (f : Char → Char) (K : Cursor → Cursor → Prop) : Prop where
  lower : ∀ {c d}, f c = f d → c.toLower = d.toLower
  text : ∀ {a b}, K a b → a.rest.map f = b.rest.map f
  advance : ∀ {p q c d cs ds}, K ⟨p, c :: cs⟩ ⟨q, d :: ds⟩ → K ⟨p.advance c, cs⟩ ⟨q.advance d, ds⟩

variable {f : Char → Char} {K : Cursor → Cursor → Prop} {p q : Position} {c d e : Char} {cs ds : List Char}

namespace Pairing

theorem flip (hK : Pairing f K) : Pairing f fun a b => K b a :=
  ⟨hK.lower, fun h => (hK.text h).symm, fun h => hK.advance h⟩

theorem eq_nil (hK : Pairing f K) (h : K ⟨p, []⟩ ⟨q, ds⟩) : ds = [] :=
  List.map_eq_nil_iff.mp (hK.text h).symm

theorem eq_cons (hK : Pairing f K) (h : K ⟨p, c :: cs⟩ ⟨q, ds⟩) : ∃ d ds', ds = d :: ds' ∧ f c = f d := by
  obtain ⟨d, ds', rfl, hd, -⟩ := List.map_eq_cons_iff.mp (hK.text h).symm
  exact ⟨d, ds', rfl, hd.symm⟩

theorem lower_map (hK : Pairing f K) (h : cs.map f = ds.map f) : cs.map Char.toLower = ds.map Char.toLower := by
  induction cs generalizing ds with
  | nil => rw [List.map_eq_nil_iff.mp h.symm]
  | cons c cs ih =>
      obtain ⟨d, ds, rfl, hd, hds⟩ := List.map_eq_cons_iff.mp h.symm
      rw [List.map_cons, List.map_cons, hK.lower hd, ih hds.symm]

/-- A character that is no letter stands at both places or at neither. -/
theorem eq_char (hK : Pairing f K) (he : e.isAlpha = false) (h : f c = f d) : c = e ↔ d = e := by
  rw [← lower_eq_iff he, ← lower_eq_iff (c := d) he, hK.lower h]

theorem starts (hK : Pairing f K) (he : e.isAlpha = false) (h : K ⟨p, e :: cs⟩ ⟨q, ds⟩) :
    ∃ ds', ds = e :: ds' ∧ K ⟨p.advance e, cs⟩ ⟨q.advance e, ds'⟩ := by
  obtain ⟨d, ds, rfl, hd⟩ := hK.eq_cons h
  obtain rfl := (hK.eq_char he hd).mp rfl
  exact ⟨ds, rfl, hK.advance h⟩

/-- The places behind the same number of characters are paired. -/
theorem drop (hK : Pairing f K) (n : Nat) (h : K ⟨p, cs⟩ ⟨q, ds⟩) :
    K ⟨p.after (cs.take n), cs.drop n⟩ ⟨q.after (ds.take n), ds.drop n⟩ := by
  induction n generalizing p q cs ds with
  | zero => exact h
  | succ n ih =>
      cases cs with
      | nil =>
          obtain rfl := hK.eq_nil h
          exact h
      | cons c cs =>
          obtain ⟨d, ds, rfl, -⟩ := hK.eq_cons h
          exact ih (hK.advance h)

theorem opensComment (hK : Pairing f K) (h : K ⟨p, cs⟩ ⟨q, ds⟩) (hopen : opensComment ds = true) :
    opensComment cs = true := by
  unfold Syntax.opensComment at hopen
  split at hopen
  · obtain ⟨_, rfl, hnext⟩ := hK.flip.starts (by decide) h
    obtain ⟨_, rfl, -⟩ := hK.flip.starts (by decide) hnext
    rfl
  · obtain ⟨_, rfl, hnext⟩ := hK.flip.starts (by decide) h
    obtain ⟨_, rfl, -⟩ := hK.flip.starts (by decide) hnext
    rfl
  · cases hopen

end Pairing

/-! ## Faults and tokens -/

/-- A cause in which the text that it quotes is written with other characters. -/
def Cause.spelled (f : Char → Char) : Cause → Cause
  | unrecognised text => unrecognised (text.map f)
  | mismatched found expected => mismatched (String.ofList (found.toList.map f)) expected
  | tooDeep limit opener => tooDeep limit (String.ofList (opener.toList.map f))

theorem Cause.spelled_id (cause : Cause) : cause.spelled id = cause := by
  cases cause <;> simp [spelled]

/-- Faults at paired places that quote the same text. -/
structure FaultsPair (f : Char → Char) (K : Cursor → Cursor → Prop) (e e' : SyntaxError) : Prop where
  place : ∃ a b, K a b ∧ e.position = a.position ∧ e'.position = b.position
  cause : e.cause.spelled f = e'.cause.spelled f

/-- Where no character is changed, paired faults are worded alike. -/
theorem FaultsPair.message {e e' : SyntaxError} (h : FaultsPair id K e e') : e.message = e'.message := by
  have hcause := h.cause
  rw [Cause.spelled_id, Cause.spelled_id] at hcause
  exact congrArg Cause.message hcause

/-- Tokens at paired places that look the same. -/
structure TokensPair (f : Char → Char) (K : Cursor → Cursor → Prop) (t t' : Token) : Prop where
  symbol : t.toSymbol = t'.toSymbol
  text : t.text.map f = t'.text.map f
  start : K ⟨t.start, t.text ++ t.rest⟩ ⟨t'.start, t'.text ++ t'.rest⟩
  finish : K t.finish t'.finish

/-- What two walks over trivia are inside of: comments that were opened at paired places. -/
inductive SurroundingsPair (K : Cursor → Cursor → Prop) : Surrounding → Surrounding → Prop where
  | nothing : SurroundingsPair K .nothing .nothing
  | lineComment : SurroundingsPair K .lineComment .lineComment
  | blockComment {start start' : Position} {whole whole' : List Char} : K ⟨start, whole⟩ ⟨start', whole'⟩ →
      SurroundingsPair K (.blockComment start whole) (.blockComment start' whole')

namespace Pairing

/-- Walks over trivia from paired places end at paired places. -/
theorem skipTrivia (hK : Pairing f K) {around around' : Surrounding} (haround : SurroundingsPair K around around')
    (h : K ⟨p, cs⟩ ⟨q, ds⟩) : Both K (FaultsPair f K) (skipTrivia around p cs) (skipTrivia around' q ds) := by
  fun_induction Syntax.skipTrivia around p cs generalizing around' q ds with
  | case1 p | case6 p =>
      cases haround
      obtain rfl := hK.eq_nil h
      exact .ok h
  | case2 p rest ih =>
      cases haround
      obtain ⟨ds, rfl, h₁⟩ := hK.starts (by decide) h
      obtain ⟨ds, rfl, h₂⟩ := hK.starts (by decide) h₁
      rw [Syntax.skipTrivia]
      exact ih .lineComment h₂
  | case3 p rest ih =>
      cases haround
      obtain ⟨ds, rfl, h₁⟩ := hK.starts (by decide) h
      obtain ⟨ds, rfl, h₂⟩ := hK.starts (by decide) h₁
      rw [Syntax.skipTrivia]
      exact ih (.blockComment h) h₂
  | case4 p c rest hline hblock hblank ih =>
      cases haround
      obtain ⟨d, ds, rfl, hd⟩ := hK.eq_cons h
      have hblank' : isBlank d = true := by rw [← isBlank_lower, ← hK.lower hd, isBlank_lower, hblank]
      rw [skipTrivia_blank hblank']
      exact ih .nothing (hK.advance h)
  | case5 p c rest hline hblock hblank =>
      cases haround
      obtain ⟨d, ds, rfl, hd⟩ := hK.eq_cons h
      have hblank' : isBlank d = false := by
        rw [← isBlank_lower, ← hK.lower hd, isBlank_lower]
        simpa using hblank
      have hopen : Syntax.opensComment (d :: ds) = false := by
        refine Bool.eq_false_iff.mpr fun hopen => ?_
        have hopen' := hK.opensComment h hopen
        unfold Syntax.opensComment at hopen'
        split at hopen' <;> simp_all
      rw [skipTrivia_bare ⟨by simpa using hblank', hopen⟩]
      exact .ok h
  | case7 p c rest ih =>
      cases haround
      obtain ⟨d, ds, rfl, hd⟩ := hK.eq_cons h
      have hline := hK.eq_char (e := '\n') (by decide) hd
      rw [Syntax.skipTrivia]
      refine ih ?_ (hK.advance h)
      by_cases hc : c = '\n'
      · rw [if_pos hc, if_pos (hline.mp hc)]
        exact .nothing
      · rw [if_neg hc, if_neg (hline.not.mp hc)]
        exact .lineComment
  | case8 start whole p =>
      cases haround with
      | blockComment hstart =>
          obtain rfl := hK.eq_nil h
          exact .error ⟨⟨_, _, hstart, rfl, rfl⟩, congrArg Cause.unrecognised (hK.text hstart)⟩
  | case9 start whole p rest ih =>
      cases haround with
      | blockComment hstart =>
          obtain ⟨ds, rfl, h₁⟩ := hK.starts (by decide) h
          obtain ⟨ds, rfl, h₂⟩ := hK.starts (by decide) h₁
          rw [Syntax.skipTrivia]
          exact ih .nothing h₂
  | case10 start whole p c rest hclose ih =>
      cases haround with
      | blockComment hstart =>
          obtain ⟨d, ds, rfl, hd⟩ := hK.eq_cons h
          have hclose' : ∀ rest', d = '*' → ds = '/' :: rest' → False := by
            rintro rest' rfl rfl
            obtain ⟨rest, hrest, -⟩ := hK.flip.starts (by decide) (hK.advance h)
            exact hclose rest ((hK.eq_char (by decide) hd).mpr rfl) hrest
          rw [Syntax.skipTrivia]
          · exact ih (.blockComment hstart) (hK.advance h)
          · exact hclose'

/-- The token that is cut off a place is cut off the paired place. -/
theorem token (hK : Pairing f K) (mode : Mode) {a b : Cursor} (h : K a b) :
    Both (TokensPair f K) (FaultsPair f K) (a.token mode) (b.token mode) := by
  obtain ⟨p, cs⟩ := a
  obtain ⟨q, ds⟩ := b
  cases cs with
  | nil =>
      obtain rfl := hK.eq_nil h
      exact .ok ⟨rfl, rfl, h, h⟩
  | cons c cs =>
      have htext := hK.text h
      obtain ⟨d, ds, rfl, hd⟩ := hK.eq_cons h
      have hform : lexeme mode c cs = lexeme mode d ds := by
        rw [← lexeme_lower, hK.lower hd, hK.lower_map (List.cons.inj htext).2, lexeme_lower]
      have htake : ∀ n, ((c :: cs).take n).map f = ((d :: ds).take n).map f := by
        intro n
        rw [List.map_take, List.map_take, htext]
      simp only [Cursor.token, hform]
      split
      · rename_i kind n _
        refine .ok ⟨?_, htake n, ?_, hK.drop n h⟩
        · simp only [Token.cut, Symbol.ofText, Keyword.ofWord?_congr (hK.lower_map (htake n))]
        · simpa only [Token.cut, List.take_append_drop] using h
      · rename_i n _
        exact .error ⟨⟨_, _, h, rfl, rfl⟩, congrArg Cause.unrecognised (htake n)⟩

/-- **The next tokens at paired places are paired.** -/
theorem next (hK : Pairing f K) (mode : Mode) {a b : Cursor} (h : K a b) :
    Both (TokensPair f K) (FaultsPair f K) (a.next mode) (b.next mode) := by
  have hskip := hK.skipTrivia .nothing h
  unfold Cursor.next
  generalize Syntax.skipTrivia .nothing a.position a.rest = found at hskip ⊢
  generalize Syntax.skipTrivia .nothing b.position b.rest = found' at hskip ⊢
  cases hskip with
  | ok hthere => exact hK.token mode hthere
  | error hfault => exact .error hfault

end Pairing
end Esql.Syntax
