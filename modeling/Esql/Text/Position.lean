/-!
# `Text.Position` — places in a text

A place is a line and a column. Lines are counted from 1 and only a line feed ends one; columns are
counted from 0 in Unicode scalar values. The place after a piece of text is found by walking over its
characters, and walking over two pieces is walking over their concatenation (`after_append`).
-/

namespace Esql.Text

/-- A line, counted from 1, and a column, counted from 0. -/
structure Position where
  line : Nat
  column : Nat
deriving DecidableEq, Repr

namespace Position

/-- The place before the first character. -/
def start : Position := ⟨1, 0⟩

/-- The place after the character `c`. -/
def advance (p : Position) (c : Char) : Position :=
  if c = '\n' then ⟨p.line + 1, 0⟩ else ⟨p.line, p.column + 1⟩

/-- The place after the characters `cs`. -/
def after (p : Position) (cs : List Char) : Position := cs.foldl advance p

@[simp] theorem after_nil (p : Position) : p.after [] = p := rfl

@[simp] theorem after_cons (p : Position) (c : Char) (cs : List Char) :
    p.after (c :: cs) = (p.advance c).after cs := rfl

theorem after_append (p : Position) (a b : List Char) : p.after (a ++ b) = (p.after a).after b :=
  List.foldl_append

/-- The line of a place grows by the line feeds that are walked over. -/
theorem line_after (p : Position) (cs : List Char) : (p.after cs).line = p.line + cs.count '\n' := by
  induction cs generalizing p with
  | nil => rfl
  | cons c cs ih =>
      rw [after_cons, ih, List.count_cons]
      by_cases h : c = '\n'
      · simp only [advance, h, if_pos, beq_self_eq_true]
        omega
      · simp [advance, h]

end Position

end Esql.Text
