import Esql.Proofs.Tokens.Extent

/-!
# `Proofs.Tokens.Walks` — tokens walked over character by character

A form is given by the number of its characters, and the place behind a token is found from its text
afterwards. Here each form is walked over instead: from the place of its first character, one character after
the other, as far as its own rule says, with the place carried along, and the token is what stands between the
two places. Form by form, the walk goes as far as the form does and arrives at the place that the text gives
(`form_eq`). So both ways cut the same tokens and refuse the same pieces of a text (`token_eq_walk`,
`next_eq_walk`), and a token ends where the walk over it ends (`finish_between`).

## Contents
- `Cursor.ahead`, the place some characters further, and `Cursor.upTo`, the text between two places.
- The walk over each form, and beside it that it goes as far as the form does.
- `Walk.token`, the token between two places.
-/

namespace Esql.Syntax

open Esql.Text (Position)

variable {here : Cursor} {p : Position} {c : Char} {cs rest : List Char} {n : Nat}

/-! ## Places further on -/

namespace Cursor

/-- The place behind the next `n` characters. -/
def ahead (here : Cursor) (n : Nat) : Cursor :=
  ⟨here.position.after (here.rest.take n), here.rest.drop n⟩

/-- The kind of a form, and the place behind it. -/
def reached (here : Cursor) (form : Option Kind × Nat) : Option Kind × Cursor :=
  (form.1, here.ahead form.2)

/-- One more character is walked over. -/
theorem ahead_succ (h : here.ahead n = ⟨p, c :: rest⟩) : here.ahead (n + 1) = ⟨p.advance c, rest⟩ := by
  obtain ⟨hposition, hrest⟩ := Cursor.mk.inj h
  have hnext : here.rest[n]? = some c := by rw [← List.head?_drop, hrest, List.head?_cons]
  have hdrop : here.rest.drop (n + 1) = rest := by rw [← List.drop_drop, hrest, List.drop_succ_cons, List.drop_zero]
  rw [ahead, List.take_add_one, hnext, Position.after_append, hposition, hdrop]
  rfl

/-- What follows behind `k` more characters. -/
theorem rest_ahead (h : here.ahead n = ⟨p, cs⟩) (k : Nat) : (here.ahead (n + k)).rest = cs.drop k := by
  show here.rest.drop (n + k) = cs.drop k
  rw [← List.drop_drop]
  exact congrArg (fun there => there.rest.drop k) h

/-- The text between a place and one further on. -/
def upTo (here there : Cursor) : List Char := here.rest.take (here.rest.length - there.rest.length)

theorem upTo_ahead (here : Cursor) (n : Nat) : here.upTo (here.ahead n) = here.rest.take n := by
  show here.rest.take (here.rest.length - (here.rest.drop n).length) = here.rest.take n
  rw [List.length_drop, Nat.sub_sub_eq_min, Nat.min_comm, ← List.take_eq_take_min]

end Cursor

open Cursor (ahead_succ rest_ahead upTo_ahead)

/-- The text between two places, as a token of this kind. -/
def Token.between (kind : Kind) (here there : Cursor) : Token :=
  ⟨.ofText kind (here.upTo there), here.upTo there, here.position, there.rest⟩

theorem Token.between_ahead (kind : Kind) (n : Nat) (here : Cursor) :
    Token.between kind here (here.ahead n) = Token.cut kind n here := by
  unfold Token.between
  rw [upTo_ahead]
  rfl

namespace Walk

/-! ## Runs -/

/-- The walk over the characters of a class. -/
def run (isMember : Char → Bool) : Position → List Char → Cursor
  | p, c :: rest => if isMember c then run isMember (p.advance c) rest else ⟨p, c :: rest⟩
  | p, [] => ⟨p, []⟩

theorem run_eq {isMember : Char → Bool} (h : here.ahead n = ⟨p, cs⟩) :
    run isMember p cs = here.ahead (n + runLength isMember cs) := by
  induction cs generalizing n p with
  | nil => exact h.symm
  | cons c rest ih =>
      rw [run, runLength_cons]
      by_cases hc : isMember c = true
      · rw [if_pos hc, if_pos hc, ih (ahead_succ h), Nat.add_right_comm, Nat.add_assoc]
      · rw [if_neg hc, if_neg hc, Nat.add_zero, h]

/-- The walk over an index pattern, which looks one character ahead. -/
def source : Position → List Char → Cursor
  | p, c :: rest => if isSourceChar c rest.head? then source (p.advance c) rest else ⟨p, c :: rest⟩
  | p, [] => ⟨p, []⟩

theorem source_eq (h : here.ahead n = ⟨p, cs⟩) : source p cs = here.ahead (sourceLength n cs) := by
  induction cs generalizing n p with
  | nil => exact h.symm
  | cons c rest ih =>
      rw [source, sourceLength]
      by_cases hc : isSourceChar c rest.head? = true
      · rw [if_pos hc, if_pos hc, ih (ahead_succ h)]
      · rw [if_neg hc, if_neg hc, h]

/-! ## Numbers -/

/-- The walk over an exponent: its letter, its sign if it has one, its digits. -/
def exponent : Position → List Char → Option Cursor
  | p, e :: c :: rest =>
    if e = 'e' || e = 'E' then
      if c = '+' || c = '-' then
        if rest.head?.any Char.isDigit then some (run Char.isDigit ((p.advance e).advance c) rest) else none
      else if c.isDigit then some (run Char.isDigit (p.advance e) (c :: rest))
      else none
    else none
  | _, _ => none

theorem exponent_eq (h : here.ahead n = ⟨p, cs⟩) :
    exponent p cs = if exponentLength cs = 0 then none else some (here.ahead (n + exponentLength cs)) := by
  match cs with
  | [] | [_] => rfl
  | e :: c :: rest =>
      rw [exponent, exponentLength_cons, startsExponent]
      by_cases he : (e = 'e' || e = 'E') = true
      · rw [if_pos he, he]
        by_cases hsign : (c = '+' || c = '-') = true
        · have hdigit : c.isDigit = false := by
            rcases Bool.or_eq_true_iff.mp hsign with hc | hc <;> rw [of_decide_eq_true hc] <;> rfl
          rw [if_pos hsign, hdigit, hsign, run_eq (ahead_succ (ahead_succ h)), Nat.add_assoc n 1 1, Nat.add_assoc n 2]
          by_cases hrest : rest.head?.any Char.isDigit = true <;> simp [hrest]
        · rw [if_neg hsign, run_eq (ahead_succ h), runLength_cons]
          by_cases hdigit : c.isDigit = true
          · have hlength : n + 1 + (runLength Char.isDigit rest + 1) = n + (2 + runLength Char.isDigit rest) := by
              omega
            rw [if_pos hdigit, if_pos hdigit, hlength]
            simp [hdigit]
          · simp [hdigit, hsign]
      · simp [he]

/-- The walk over a point and any digits behind it, which make a number a decimal. -/
def fraction : Cursor → Kind × Cursor
  | ⟨p, '.' :: rest⟩ => (.decimal, run Char.isDigit (p.advance '.') rest)
  | there => (.integer, there)

/-- The walk over an exponent, which makes a number a decimal where it stands. -/
def withExponent (kind : Kind) (there : Cursor) : Kind × Cursor :=
  match exponent there.position there.rest with
  | some there => (.decimal, there)
  | none => (kind, there)

/-- The walk over a number: digits, a point with any digits, an exponent. -/
def number (p : Position) (cs : List Char) : Kind × Cursor :=
  let (kind, there) := fraction (run Char.isDigit p cs)
  withExponent kind there

theorem withExponent_eq (kind : Kind) (n : Nat) :
    withExponent kind (here.ahead n) =
      (if exponentLength (here.ahead n).rest = 0 then kind else .decimal,
        here.ahead (n + exponentLength (here.ahead n).rest)) := by
  have hthere : here.ahead n = ⟨(here.ahead n).position, (here.ahead n).rest⟩ := rfl
  rw [withExponent, exponent_eq hthere]
  by_cases hzero : exponentLength (here.ahead n).rest = 0
  · rw [if_pos hzero, if_pos hzero, hzero, Nat.add_zero]
  · rw [if_neg hzero, if_neg hzero]

theorem number_eq (h : here.ahead n = ⟨p, cs⟩) :
    number p cs = ((Syntax.number cs).1, here.ahead (n + (Syntax.number cs).2)) := by
  have hwhole : (here.ahead (n + runLength Char.isDigit cs)).rest = cs.drop (runLength Char.isDigit cs) :=
    rest_ahead h _
  rw [number, run_eq h]
  by_cases hpoint : (cs.drop (runLength Char.isDigit cs)).head? = some '.'
  · obtain ⟨rest, hrest⟩ := List.head?_eq_some_iff.mp hpoint
    have hdot : here.ahead (n + runLength Char.isDigit cs) =
        ⟨(here.ahead (n + runLength Char.isDigit cs)).position, '.' :: rest⟩ := by
      rw [← hrest, ← hwhole]
    have hfraction : fraction (here.ahead (n + runLength Char.isDigit cs)) =
        (.decimal, here.ahead (n + runLength Char.isDigit cs + 1 + runLength Char.isDigit rest)) := by
      rw [hdot]
      exact congrArg (Prod.mk Kind.decimal) (run_eq (ahead_succ hdot))
    rw [hfraction, number_point hrest]
    dsimp only
    rw [withExponent_eq, rest_ahead (ahead_succ hdot), ite_self]
    simp only [Nat.add_assoc]
  · have hfraction : fraction (here.ahead (n + runLength Char.isDigit cs)) =
        (.integer, here.ahead (n + runLength Char.isDigit cs)) := by
      unfold fraction
      split
      · rename_i heq
        rw [← hwhole, heq] at hpoint
        exact absurd rfl hpoint
      · rfl
    rw [hfraction, number_whole hpoint]
    dsimp only
    rw [withExponent_eq, hwhole, Nat.add_assoc]

/-! ## Quoted forms -/

/-- The walk over the rest of a string on one line; an escape is walked over as a whole, unless it is that of a line
end. -/
def quotedLine : Position → List Char → Option Kind × Cursor
  | p, '"' :: rest => (some .string, ⟨p.advance '"', rest⟩)
  | p, '\\' :: c :: rest =>
    if c = '\n' || c = '\r' then (none, ⟨p.advance '\\', c :: rest⟩)
    else quotedLine ((p.advance '\\').advance c) rest
  | p, ['\\'] => (none, ⟨p.advance '\\', []⟩)
  | p, c :: rest =>
    if c = '\n' || c = '\r' then (none, ⟨p, c :: rest⟩) else quotedLine (p.advance c) rest
  | p, [] => (none, ⟨p, []⟩)

theorem quotedLine_eq (h : here.ahead n = ⟨p, cs⟩) : quotedLine p cs = here.reached (Syntax.quotedLine n cs) := by
  fun_induction Syntax.quotedLine n cs generalizing p with
  | case1 n rest =>
      rw [quotedLine, Cursor.reached, ahead_succ h]
  | case2 n c rest hend =>
      rw [quotedLine, if_pos hend, Cursor.reached, ahead_succ h]
  | case3 n c rest hend ih =>
      rw [quotedLine, if_neg hend]
      exact ih (ahead_succ (ahead_succ h))
  | case4 n =>
      rw [quotedLine, Cursor.reached, ahead_succ h]
  | case5 n c rest hquote hescape hlone hend =>
      rw [quotedLine, if_pos hend, Cursor.reached, h]
      · exact hquote
      · exact hescape
      · exact hlone
  | case6 n c rest hquote hescape hlone hend ih =>
      rw [quotedLine, if_neg hend]
      · exact ih (ahead_succ h)
      · exact hquote
      · exact hescape
      · exact hlone
  | case7 n =>
      rw [quotedLine, Cursor.reached, h]

/-- The text in front of the first three quotes in a row, and what follows these. -/
def untilQuotes : List Char → Option (List Char × List Char)
  | '"' :: '"' :: '"' :: rest => some ([], rest)
  | c :: rest => (untilQuotes rest).map fun (body, rest) => (c :: body, rest)
  | [] => none

/-- The walk over the rest of a string in three quotes: where these are found, over the text in front of them, and
otherwise over everything. -/
def quotedText (p : Position) (cs : List Char) : Option Kind × Cursor :=
  match untilQuotes cs with
  | some (body, rest) => (some .string, ⟨(((p.after body).advance '"').advance '"').advance '"', rest⟩)
  | none => (none, run (fun _ => true) p cs)

theorem quotedText_eq (h : here.ahead n = ⟨p, cs⟩) : quotedText p cs = here.reached (Syntax.quotedText n cs) := by
  fun_induction Syntax.quotedText n cs generalizing p with
  | case1 n rest =>
      rw [quotedText, untilQuotes, Cursor.reached, ahead_succ (ahead_succ (ahead_succ h))]
      rfl
  | case2 n c rest hopen ih =>
      rw [← ih (ahead_succ h), quotedText, quotedText, untilQuotes, run, if_pos rfl]
      · cases untilQuotes rest <;> rfl
      · exact hopen
  | case3 n => rw [quotedText, untilQuotes, Cursor.reached, run, h]

/-- The walk over the rest of a quoted identifier, two characters at a time where two quotes stand for one. -/
def quotedName : Position → List Char → Option Kind × Cursor
  | p, '\x60' :: '\x60' :: rest => quotedName ((p.advance '\x60').advance '\x60') rest
  | p, '\x60' :: rest => (some .quotedIdentifier, ⟨p.advance '\x60', rest⟩)
  | p, c :: rest => quotedName (p.advance c) rest
  | p, [] => (none, ⟨p, []⟩)

theorem quotedName_eq (h : here.ahead n = ⟨p, cs⟩) : quotedName p cs = here.reached (Syntax.quotedName n cs) := by
  fun_induction Syntax.quotedName n cs generalizing p with
  | case1 n rest ih =>
      rw [quotedName]
      exact ih (ahead_succ (ahead_succ h))
  | case2 n rest hdouble =>
      rw [quotedName, Cursor.reached, ahead_succ h]
      exact hdouble
  | case3 n c rest hdouble hquote ih =>
      rw [quotedName]
      · exact ih (ahead_succ h)
      · exact hdouble
      · exact hquote
  | case4 n => rw [quotedName, Cursor.reached, h]

/-- The walk over a string behind its first quote. -/
def string : Position → List Char → Option Kind × Cursor
  | p, '"' :: '"' :: body => quotedText ((p.advance '"').advance '"') body
  | p, body => quotedLine p body

theorem string_eq (h : here.ahead 1 = ⟨p, cs⟩) : string p cs = here.reached (stringForm cs) := by
  by_cases htext : ∃ body, cs = '"' :: '"' :: body
  · obtain ⟨body, rfl⟩ := htext
    exact quotedText_eq (ahead_succ (ahead_succ h))
  · rw [stringForm_line fun body hbody => htext ⟨body, hbody⟩, ← quotedLine_eq h]
    unfold string
    split
    · exact absurd ⟨_, rfl⟩ htext
    · rfl

/-! ## Operators and parameters -/

/-- The walk over an operator: a pair, where its second character follows, or one character. -/
def operator (p : Position) (c : Char) (rest : List Char) : Option Kind × Cursor :=
  match pairOperator c rest.head?, rest with
  | some kind, second :: rest => (some kind, ⟨(p.advance c).advance second, rest⟩)
  | _, rest => ((Syntax.operator [c]).1, ⟨p.advance c, rest⟩)

theorem operator_eq (h : here.ahead n = ⟨p, c :: rest⟩) :
    operator p c rest = ((Syntax.operator (c :: rest)).1, here.ahead (n + (Syntax.operator (c :: rest)).2)) := by
  cases hpair : pairOperator c rest.head? with
  | some kind =>
      cases rest with
      | nil => simp [pairOperator] at hpair
      | cons second rest =>
          unfold operator
          rw [operator_pair hpair, hpair]
          show (some kind, _) = (some kind, here.ahead (n + 1 + 1))
          rw [ahead_succ (ahead_succ h)]
  | none =>
      have hone : (Syntax.operator [c]).2 = 1 := by
        rcases hform : Syntax.operator [c] with ⟨_ | kind, n⟩
        · exact operator_none hform
        · obtain ⟨-, hpos, hle⟩ := operator_covers hform
          exact Nat.le_antisymm hle hpos
      unfold operator
      rw [operator_single hpair, hpair, hone, ahead_succ h]

/-- The walk over the rest of a parameter: a second question mark if there is one, and word characters. -/
def parameter : Position → List Char → Cursor
  | p, '?' :: rest => run isWordChar (p.advance '?') rest
  | p, rest => run isWordChar p rest

theorem parameter_eq (h : here.ahead 1 = ⟨p, cs⟩) : parameter p cs = here.ahead (parameterLength cs) := by
  by_cases hdouble : cs.head? = some '?'
  · obtain ⟨rest, rfl⟩ := List.head?_eq_some_iff.mp hdouble
    exact run_eq (ahead_succ h)
  · rw [parameterLength_plain hdouble, ← run_eq h]
    unfold parameter
    split
    · exact absurd rfl hdouble
    · rfl

/-! ## All forms -/

/-- The walk over the form that begins with the character `c` before `rest`, where no form of the mode begins. -/
def common (p : Position) (c : Char) (rest : List Char) : Option Kind × Cursor :=
  if c.isAlpha then (some .identifier, run isWordChar p (c :: rest))
  else if c = '_' || c = '@' then
    let there := run isWordChar (p.advance c) rest
    (if there.rest = rest then none else some .identifier, there)
  else if c.isDigit || (c = '.' && rest.head?.any Char.isDigit) then
    let (kind, there) := number p (c :: rest)
    (some kind, there)
  else if c = '"' then string (p.advance '"') rest
  else if c = backquote then quotedName (p.advance backquote) rest
  else if c = '?' then (some .parameter, parameter (p.advance '?') rest)
  else operator p c rest

theorem common_eq (here : Cursor) (h : here.rest = c :: rest) :
    common here.position c rest = here.reached (commonLexeme c rest) := by
  have hstart : here.ahead 0 = ⟨here.position, c :: rest⟩ := by rw [← h]; rfl
  have hnext : here.ahead 1 = ⟨here.position.advance c, rest⟩ := ahead_succ hstart
  unfold common commonLexeme
  by_cases hletter : c.isAlpha = true
  · have hword : isWordChar c = true := by simp [isWordChar, Char.isAlphanum, hletter]
    rw [if_pos hletter, if_pos hletter, run_eq hstart, runLength_cons, if_pos hword, Nat.zero_add, Nat.add_comm]
    rfl
  rw [if_neg hletter, if_neg hletter]
  by_cases hscore : (c = '_' || c = '@') = true
  · have hempty : rest.drop (runLength isWordChar rest) = rest ↔ runLength isWordChar rest = 0 := by
      refine ⟨fun hrest => ?_, fun hzero => by rw [hzero, List.drop_zero]⟩
      have hlength := congrArg List.length hrest
      have hle := runLength_le isWordChar rest
      rw [List.length_drop] at hlength
      omega
    rw [if_pos hscore, if_pos hscore, run_eq hnext]
    dsimp only
    rw [rest_ahead hnext]
    simp only [hempty]
    rfl
  rw [if_neg hscore, if_neg hscore]
  by_cases hnumber : (c.isDigit || (c = '.' && rest.head?.any Char.isDigit)) = true
  · rw [if_pos hnumber, if_pos hnumber, number_eq hstart, Nat.zero_add]
    rfl
  rw [if_neg hnumber, if_neg hnumber]
  by_cases hquote : c = '"'
  · subst hquote
    rw [if_pos rfl, if_pos rfl]
    exact string_eq hnext
  rw [if_neg hquote, if_neg hquote]
  by_cases hname : c = backquote
  · subst hname
    rw [if_pos rfl, if_pos rfl]
    exact quotedName_eq hnext
  rw [if_neg hname, if_neg hname]
  by_cases hparameter : c = '?'
  · subst hparameter
    rw [if_pos rfl, if_pos rfl, parameter_eq hnext]
    rfl
  rw [if_neg hparameter, if_neg hparameter, operator_eq hstart, Nat.zero_add]
  rfl

/-- The walk over the form that begins with the character `c` before `rest`. -/
def form (mode : Mode) (p : Position) (c : Char) (rest : List Char) : Option Kind × Cursor :=
  match mode with
  | .source => if isSourceChar c rest.head? then (some .source, source p (c :: rest)) else common p c rest
  | .pattern => if startsPattern c then (some .namePattern, run isPatternChar (p.advance c) rest) else common p c rest
  | .expression => common p c rest

/-- **The walk over a form goes as far as the form does.** -/
theorem form_eq (mode : Mode) (here : Cursor) (h : here.rest = c :: rest) :
    form mode here.position c rest = here.reached (lexeme mode c rest) := by
  have hstart : here.ahead 0 = ⟨here.position, c :: rest⟩ := by rw [← h]; rfl
  have hnext : here.ahead 1 = ⟨here.position.advance c, rest⟩ := ahead_succ hstart
  unfold form lexeme
  cases mode with
  | expression => exact common_eq here h
  | source =>
      dsimp only
      by_cases hc : isSourceChar c rest.head? = true
      · rw [if_pos hc, if_pos hc, source_eq hstart, sourceLength, if_pos hc]
        rfl
      · rw [if_neg hc, if_neg hc]
        exact common_eq here h
  | pattern =>
      dsimp only
      by_cases hc : startsPattern c = true
      · rw [if_pos hc, if_pos hc, run_eq hnext]
        rfl
      · rw [if_neg hc, if_neg hc]
        exact common_eq here h

/-! ## Tokens -/

/-- The token that stands at a place which no trivia follows: what is walked over. -/
def token (mode : Mode) (here : Cursor) : Except SyntaxError Token :=
  match here.rest with
  | [] => .ok (Token.endOfText here.position)
  | c :: rest =>
    match form mode here.position c rest with
    | (some kind, there) => .ok (Token.between kind here there)
    | (none, there) => .error ⟨here.position, .unrecognised (here.upTo there)⟩

end Walk

/-- **Walking over the text cuts the same tokens**, and refuses the same pieces of it. -/
theorem token_eq_walk (mode : Mode) (here : Cursor) : here.token mode = Walk.token mode here := by
  unfold Cursor.token Walk.token
  cases hrest : here.rest with
  | nil => rfl
  | cons c rest =>
      dsimp only
      rw [Walk.form_eq mode here hrest]
      obtain ⟨kind, n⟩ := lexeme mode c rest
      cases kind with
      | some kind => exact congrArg Except.ok (Token.between_ahead kind n here).symm
      | none =>
          show _ = Except.error (SyntaxError.mk here.position (.unrecognised (here.upTo (here.ahead n))))
          rw [upTo_ahead, hrest]

/-- The next token is walked over from the place behind the trivia. -/
theorem next_eq_walk (mode : Mode) (here : Cursor) :
    here.next mode = (skipTrivia .nothing here.position here.rest).bind (Walk.token mode) :=
  congrArg _ (funext (token_eq_walk mode))

/-- A token ends where the walk over it ends. -/
theorem finish_between {kind : Kind} {there : Cursor} (mode : Mode) (here : Cursor) (h : here.rest = c :: rest)
    (hwalk : Walk.form mode here.position c rest = (some kind, there)) :
    (Token.between kind here there).finish = there := by
  rw [Walk.form_eq mode here h] at hwalk
  obtain ⟨-, rfl⟩ := Prod.mk.inj hwalk
  rw [Token.between_ahead]
  rfl

end Esql.Syntax
