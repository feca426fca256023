import Esql.Syntax.Trivia

/-!
# `Proofs.Tokens.Trivia` — how a walk over trivia passes a text

A walk over trivia stops where a token begins, where the text is over, or at a comment that is never closed.
`Skips` says what the walk passes on the way, character by character and without places, so that two texts
with a common start can be compared: what is passed in one of them is passed in the other
(`skipTrivia_append`).

## Contents
- `opensComment` and `Bare`: where a walk stops at once.
- `Skips`, its meaning for `skipTrivia`, and its converse for both ends of a walk (`skips_of_ok`,
  `skips_of_error`).
- `Fresh`: what may follow a walk that ends inside of a line comment.
-/

namespace Esql.Syntax

open Esql.Text (Position isBlank)

/-! ## Where a walk stops at once -/

/-- A comment begins here. -/
def opensComment : List Char → Bool
  | '/' :: '/' :: _ => true
  | '/' :: '*' :: _ => true
  | _ => false

/-- No trivia stands at the start of the text. -/
def Bare (cs : List Char) : Prop :=
  (∀ c ∈ cs.head?, isBlank c = false) ∧ opensComment cs = false

theorem bare_nil : Bare [] := by simp [Bare, opensComment]

theorem skipTrivia_bare {cs : List Char} (h : Bare cs) (p : Position) :
    skipTrivia .nothing p cs = .ok ⟨p, cs⟩ := by
  obtain ⟨hblank, hcomment⟩ := h
  unfold skipTrivia
  split <;> simp_all [opensComment]

/-! ## What a walk passes -/

/-- What a walk over trivia is inside of, without the place where that began. -/
inductive Inside where
  | nothing
  | line
  | block
deriving DecidableEq

/-- The kind of a surrounding. -/
def Surrounding.inside : Surrounding → Inside
  | nothing => .nothing
  | lineComment => .line
  | blockComment .. => .block

/-- `Skips a gap b`: a walk inside of `a` passes the characters `gap` and is then inside of `b`. -/
inductive Skips : Inside → List Char → Inside → Prop where
  | done {a} : Skips a [] a
  | blank {c cs a} : isBlank c = true → Skips .nothing cs a → Skips .nothing (c :: cs) a
  | openLine {cs a} : Skips .line cs a → Skips .nothing ('/' :: '/' :: cs) a
  | openBlock {cs a} : Skips .block cs a → Skips .nothing ('/' :: '*' :: cs) a
  | inLine {c cs a} : c ≠ '\n' → Skips .line cs a → Skips .line (c :: cs) a
  | endLine {cs a} : Skips .nothing cs a → Skips .line ('\n' :: cs) a
  | inBlock {c cs a} : (c = '*' → cs.head? ≠ some '/') → Skips .block cs a → Skips .block (c :: cs) a
  | endBlock {cs a} : Skips .nothing cs a → Skips .block ('*' :: '/' :: cs) a

theorem skipTrivia_blank {c : Char} (h : isBlank c = true) (p : Position) (cs : List Char) :
    skipTrivia .nothing p (c :: cs) = skipTrivia .nothing (p.advance c) cs := by
  have hc : c ≠ '/' := by
    rintro rfl
    exact absurd h (by decide)
  rw [skipTrivia.eq_def]
  split <;> simp_all

theorem skipTrivia_inBlock {c d : Char} (h : c = '*' → d ≠ '/') {start : Position} {whole : List Char}
    (p : Position) (cs : List Char) :
    skipTrivia (.blockComment start whole) p (c :: d :: cs)
      = skipTrivia (.blockComment start whole) (p.advance c) (d :: cs) := by
  rw [skipTrivia]
  simp_all

/-- A walk that leaves a comment passes its end. -/
theorem Skips.ne_nil {gap : List Char} {b : Inside} (h : Skips .block gap b) (hb : b ≠ .block) :
    gap ≠ [] := by
  rintro rfl
  cases h
  exact hb rfl

/-- What is passed at the start of one text is passed at the start of every other. -/
theorem skipTrivia_append {around around' : Surrounding} {gap : List Char}
    (h : Skips around.inside gap around'.inside) (hend : around'.inside ≠ .block) (p : Position)
    (cs : List Char) :
    skipTrivia around p (gap ++ cs) = skipTrivia around' (p.after gap) cs := by
  generalize ha : around.inside = a at h
  generalize hb : around'.inside = b at h hend
  induction h generalizing around p with
  | done =>
      subst ha
      cases around <;> cases around' <;> simp_all [Surrounding.inside]
  | blank hc _ ih => cases around <;> simp_all [Surrounding.inside, skipTrivia_blank]
  | openLine _ ih => cases around <;> simp_all [Surrounding.inside, skipTrivia]
  | openBlock _ ih => cases around <;> simp_all [Surrounding.inside, skipTrivia]
  | inLine hc _ ih => cases around <;> simp_all [Surrounding.inside, skipTrivia]
  | endLine _ ih => cases around <;> simp_all [Surrounding.inside, skipTrivia]
  | @inBlock c rest b hc hrest ih =>
      -- The walk looks at two characters; the second is there because the comment is closed.
      obtain ⟨d, ds, rfl⟩ := List.exists_cons_of_ne_nil (hrest.ne_nil hend)
      cases around with
      | nothing | lineComment => cases ha
      | blockComment start whole =>
          rw [List.cons_append, List.cons_append, skipTrivia_inBlock (by simpa using hc)]
          exact ih _ rfl hb hend
  | endBlock _ ih => cases around <;> simp_all [Surrounding.inside, skipTrivia]

/-- A walk that ends has passed what stands before its end, and nothing more can be passed there. -/
theorem skips_of_ok {around : Surrounding} {p : Position} {cs : List Char} {here : Cursor}
    (h : skipTrivia around p cs = .ok here) :
    ∃ gap b, cs = gap ++ here.rest ∧ here.position = p.after gap ∧ Bare here.rest ∧
      Skips around.inside gap b ∧ (b = .nothing ∨ b = .line ∧ here.rest = []) := by
  fun_induction skipTrivia around p cs with
  | case1 p =>
      cases h
      exact ⟨[], _, rfl, rfl, bare_nil, .done, .inl rfl⟩
  | case2 p rest ih =>
      obtain ⟨gap, b, htext, hplace, hbare, hskips, hb⟩ := ih h
      exact ⟨_ :: _ :: gap, b, by rw [htext]; rfl, by rw [hplace]; rfl, hbare, .openLine hskips, hb⟩
  | case3 p rest ih =>
      obtain ⟨gap, b, htext, hplace, hbare, hskips, hb⟩ := ih h
      exact ⟨_ :: _ :: gap, b, by rw [htext]; rfl, by rw [hplace]; rfl, hbare, .openBlock hskips, hb⟩
  | case4 p c rest _ _ hblank ih =>
      obtain ⟨gap, b, htext, hplace, hbare, hskips, hb⟩ := ih h
      exact ⟨c :: gap, b, by rw [htext]; rfl, by rw [hplace]; rfl, hbare, .blank hblank hskips, hb⟩
  | case5 p c rest hline hblock hblank =>
      cases h
      refine ⟨[], _, rfl, rfl, ⟨by simpa using hblank, ?_⟩, .done, .inl rfl⟩
      unfold opensComment
      split <;> simp_all
  | case6 p =>
      cases h
      exact ⟨[], _, rfl, rfl, bare_nil, .done, .inr ⟨rfl, rfl⟩⟩
  | case7 p c rest ih =>
      obtain ⟨gap, b, htext, hplace, hbare, hskips, hb⟩ := ih h
      refine ⟨c :: gap, b, by rw [htext]; rfl, by rw [hplace]; rfl, hbare, ?_, hb⟩
      by_cases hc : c = '\n'
      · subst hc
        exact .endLine hskips
      · rw [if_neg hc] at hskips
        exact .inLine hc hskips
  | case8 => cases h
  | case9 start whole p rest ih =>
      obtain ⟨gap, b, htext, hplace, hbare, hskips, hb⟩ := ih h
      exact ⟨_ :: _ :: gap, b, by rw [htext]; rfl, by rw [hplace]; rfl, hbare, .endBlock hskips, hb⟩
  | case10 start whole p c rest hclose ih =>
      obtain ⟨gap, b, htext, hplace, hbare, hskips, hb⟩ := ih h
      refine ⟨c :: gap, b, by rw [htext]; rfl, by rw [hplace]; rfl, hbare, .inBlock ?_ hskips, hb⟩
      intro hc hhead
      obtain ⟨gap', rfl⟩ := List.head?_eq_some_iff.mp hhead
      exact hclose (gap' ++ here.rest) hc htext

/-- The fault of a walk that begins inside of `around`: a comment that is open before, or one that is opened
    on the way. -/
def OpenComment (around : Surrounding) (p : Position) (cs : List Char) (e : SyntaxError) : Prop :=
  (∃ start whole, around = .blockComment start whole ∧ e = ⟨start, .unrecognised whole⟩) ∨
    ∃ gap whole, cs = gap ++ whole ∧ Skips around.inside gap .nothing ∧ opensComment whole = true ∧
      e = ⟨p.after gap, .unrecognised whole⟩

theorem openComment_of_error {around : Surrounding} {p : Position} {cs : List Char} {e : SyntaxError}
    (h : skipTrivia around p cs = .error e) : OpenComment around p cs e := by
  fun_induction skipTrivia around p cs with
  | case1 | case5 | case6 => cases h
  | case2 p rest ih =>
      obtain ⟨_, _, hin, _⟩ | ⟨gap, whole, rfl, hskips, hopen, rfl⟩ := ih h
      · cases hin
      · exact .inr ⟨_ :: _ :: gap, whole, rfl, .openLine hskips, hopen, rfl⟩
  | case3 p rest ih =>
      obtain ⟨start, whole, hin, rfl⟩ | ⟨gap, whole, rfl, hskips, hopen, rfl⟩ := ih h
      · cases hin
        exact .inr ⟨[], _, rfl, .done, rfl, rfl⟩
      · exact .inr ⟨_ :: _ :: gap, whole, rfl, .openBlock hskips, hopen, rfl⟩
  | case4 p c rest _ _ hblank ih =>
      obtain ⟨_, _, hin, _⟩ | ⟨gap, whole, rfl, hskips, hopen, rfl⟩ := ih h
      · cases hin
      · exact .inr ⟨c :: gap, whole, rfl, .blank hblank hskips, hopen, rfl⟩
  | case7 p c rest ih =>
      by_cases hc : c = '\n'
      · rw [if_pos hc] at ih h
        obtain ⟨_, _, hin, _⟩ | ⟨gap, whole, rfl, hskips, hopen, rfl⟩ := ih h
        · cases hin
        · subst hc
          exact .inr ⟨_ :: gap, whole, rfl, .endLine hskips, hopen, rfl⟩
      · rw [if_neg hc] at ih h
        obtain ⟨_, _, hin, _⟩ | ⟨gap, whole, rfl, hskips, hopen, rfl⟩ := ih h
        · cases hin
        · exact .inr ⟨c :: gap, whole, rfl, .inLine hc hskips, hopen, rfl⟩
  | case8 start whole p =>
      cases h
      exact .inl ⟨start, whole, rfl, rfl⟩
  | case9 start whole p rest ih =>
      obtain ⟨_, _, hin, _⟩ | ⟨gap, whole, rfl, hskips, hopen, rfl⟩ := ih h
      · cases hin
      · exact .inr ⟨_ :: _ :: gap, whole, rfl, .endBlock hskips, hopen, rfl⟩
  | case10 start whole p c rest hclose ih =>
      obtain ⟨_, _, hin, rfl⟩ | ⟨gap, whole, rfl, hskips, hopen, rfl⟩ := ih h
      · exact .inl ⟨_, _, hin, rfl⟩
      · refine .inr ⟨c :: gap, whole, rfl, .inBlock ?_ hskips, hopen, rfl⟩
        intro hc hhead
        obtain ⟨gap', rfl⟩ := List.head?_eq_some_iff.mp hhead
        exact hclose (gap' ++ whole) hc rfl

/-- The only fault of a walk is a comment that is never closed: it is refused where it opens. -/
theorem skips_of_error {p : Position} {cs : List Char} {e : SyntaxError}
    (h : skipTrivia .nothing p cs = .error e) :
    ∃ gap whole, cs = gap ++ whole ∧ Skips .nothing gap .nothing ∧ opensComment whole = true ∧
      e = ⟨p.after gap, .unrecognised whole⟩ := by
  obtain ⟨_, _, hin, _⟩ | hopen := openComment_of_error h
  · cases hin
  · exact hopen

/-! ## Behind a line comment -/

/-- A text that is over or goes on in a new line. -/
def Fresh (cs : List Char) : Prop := cs = [] ∨ cs.head? = some '\n'

/-- A line comment ends where the text is over or goes on in a new line. -/
theorem skipTrivia_line_fresh {cs : List Char} (h : Fresh cs) (p : Position) :
    skipTrivia .lineComment p cs = skipTrivia .nothing p cs := by
  obtain rfl | hhead := h
  · rfl
  · obtain ⟨cs, rfl⟩ := List.head?_eq_some_iff.mp hhead
    rw [skipTrivia_blank (by decide), skipTrivia, if_pos rfl]

end Esql.Syntax
