import Esql.Syntax.Grammar
import Esql.Syntax.Lexeme

/-!
# `Syntax.Recognizer` — following the plans over a text

A state is a place in the text, the plan at hand, and the plans that wait for it to be done. One step
follows the plan by one node; a run repeats steps until the statement is accepted or refused.

How far the recognizer looks ahead can be arranged in more than one way with the same result, and the
`Strategy` says which is used: whether the token that was looked at last is kept for the next look, and
whether an assignment target is found by trying to read one and going back, or by a scan of its own.

## Contents
- `Strategy`, `State` and the token operations `peek`, `advance`, `note`;
- assignment targets: `Cursor.target?`, `State.target?`;
- `State.step` and `State.run`;
- `check`, which gives every text enough steps.
-/

namespace Esql.Syntax

open Esql.Text (Position)

/-- How statements are recognised. -/
structure Strategy where
  /-- How many openers may be open at once. -/
  limit : Nat := 100
  /-- The token looked at last is kept for the next look. -/
  keepsToken : Bool := true
  /-- An assignment target is tried, and given up by going back to where it began. -/
  triesTarget : Bool := true
deriving DecidableEq, Repr

/-- What waits for a phrase to be complete. -/
inductive Frame where
  /-- Go on with a plan. -/
  | resume (plan : Plan)
  /-- Leave a level of nesting. -/
  | leave
deriving Repr

/-- Where the recognition of a statement stands. -/
structure State where
  cursor : Cursor
  /-- The token that was looked at from here, and in which mode. -/
  ahead : Option (Mode × Token)
  /-- What was expected here and did not come. -/
  expected : List Terminal
  depth : Nat
  /-- The token that is blamed when the next level is too deep. -/
  opener : Token
  plan : Plan
  stack : List Frame
deriving Repr

/-- What one step leads to. -/
inductive Progress where
  | goesOn (s : State)
  | stops (verdict : Except SyntaxError Unit)

namespace State

/-- The state before a text. -/
def start (text : List Char) : State where
  cursor := Cursor.start text
  ahead := none
  expected := []
  depth := 0
  opener := Token.endOfText Position.start
  plan := Rule.statement.plan
  stack := []

/-! ## Tokens -/

/-- Read the next token in a mode and leave it where it is. -/
def peek (strategy : Strategy) (mode : Mode) (s : State) : Except SyntaxError (Token × State) :=
  match s.ahead with
  | some (m, token) => if m = mode then .ok (token, s) else look
  | none => look
where
  look := do
    let token ← s.cursor.next mode
    return (token, if strategy.keepsToken then { s with ahead := some (mode, token) } else s)

/-- Go behind a token; nothing is expected there yet. -/
def advance (s : State) (token : Token) : State :=
  { s with cursor := token.finish, ahead := none, expected := [] }

/-- Note what was expected here. -/
def note (s : State) (wanted : List Terminal) : State :=
  { s with expected := s.expected ++ wanted }

/-- The fault that a token is not what was expected. -/
def mismatch (s : State) (token : Token) : SyntaxError :=
  ⟨token.start, .mismatched token.shown s.expected⟩

end State

/-- Whether a token is one of those wanted. -/
def Token.isAmong (token : Token) (wanted : List Terminal) : Bool :=
  wanted.any fun terminal => terminal.accepts token.toSymbol

/-! ## Assignment targets

A field may begin with a qualified name and `=`. Whether it does shows only at the `=`, any number of
tokens later. Each part of the name takes a character at least, so the name has no more parts than
characters follow: the first argument is used up by one for each part. -/

/-- The place behind the `=` of an assignment target that stands here, found by a scan. -/
def Cursor.target? : List Char → Cursor → Option Cursor
  | [], _ => none
  | _ :: ahead, here =>
    match here.next .expression with
    | .error _ => none
    | .ok part =>
      if part.isAmong [.name, .kind .quotedIdentifier] then
        match part.finish.next .expression with
        | .error _ => none
        | .ok token =>
          if token.kind = .dot then target? ahead token.finish
          else if token.kind = .assign then some token.finish
          else none
      else none

/-- The state behind the `=` of an assignment target that stands here, found by reading one. -/
def State.target? (strategy : Strategy) : List Char → State → Option State
  | [], _ => none
  | _ :: ahead, s =>
    match s.peek strategy .expression with
    | .error _ => none
    | .ok (part, s) =>
      if part.isAmong [.name, .kind .quotedIdentifier] then
        match (s.advance part).peek strategy .expression with
        | .error _ => none
        | .ok (token, s) =>
          if token.kind = .dot then target? strategy ahead (s.advance token)
          else if token.kind = .assign then some (s.advance token)
          else none
      else none

/-- The state behind the assignment target that stands here, or the same state where none does. -/
def State.skipTarget (strategy : Strategy) (s : State) : State :=
  if strategy.triesTarget then (s.target? strategy s.cursor.rest).getD s
  else
    match s.cursor.target? s.cursor.rest with
    | some cursor => { s with cursor, ahead := none, expected := [] }
    | none => s

/-! ## Steps and runs -/

namespace State

/-- Go on with the frame on top of the stack; without one the statement is accepted. -/
def complete (s : State) : Progress :=
  match s.stack with
  | [] => .stops (.ok ())
  | .resume plan :: stack => .goesOn { s with plan, stack }
  | .leave :: stack => .goesOn { s with depth := s.depth - 1, plan := .done, stack }

/-- Go on by the next token, or stop where there is none. -/
def withToken (strategy : Strategy) (s : State) (mode : Mode) (next : Token → State → Progress) :
    Progress :=
  match s.peek strategy mode with
  | .error e => .stops (.error e)
  | .ok (token, s) => next token s

/-- Follow the plan by one node. -/
def step (strategy : Strategy) (s : State) : Progress :=
  match s.plan with
  | .done => s.complete
  | .reject mode wanted =>
    s.withToken strategy mode fun token s => .stops (.error ((s.note wanted).mismatch token))
  | .look mode wanted yes no =>
    s.withToken strategy mode fun token s =>
      .goesOn { s with plan := if token.isAmong wanted then yes else no }
  | .take mode wanted yes no =>
    s.withToken strategy mode fun token s =>
      if token.isAmong wanted then .goesOn { s.advance token with plan := yes }
      else .goesOn { s.note wanted with plan := no }
  | .extend mode wanted yes no =>
    s.withToken strategy mode fun token s =>
      if token.isAmong wanted then .goesOn { s.advance token with plan := yes }
      else .goesOn { s with plan := no }
  | .call rule next => .goesOn { s with plan := rule.plan, stack := .resume next :: s.stack }
  | .jump rule => .goesOn { s with plan := rule.plan }
  | .opener next =>
    s.withToken strategy .expression fun token s => .goesOn { s with opener := token, plan := next }
  | .enter rule next =>
    if s.depth < strategy.limit then
      .goesOn
        { s with
          depth := s.depth + 1
          plan := rule.plan
          stack := .leave :: .resume next :: s.stack }
    else .stops (.error ⟨s.opener.start, .tooDeep strategy.limit s.opener.shown⟩)
  | .target next => .goesOn { s.skipTarget strategy with plan := next }

/-- Take at most `n` steps; none if they do not suffice. -/
def run (strategy : Strategy) : Nat → State → Option (Except SyntaxError Unit)
  | 0, _ => none
  | n + 1, s =>
    match s.step strategy with
    | .stops verdict => some verdict
    | .goesOn s => run strategy n s

end State

/-- How many steps the recognizer may take for each character of the text, and for its end. -/
def stepsPerCharacter : Nat := 64

/-- Whether a text is exactly one statement, or its first fault. -/
def checkBy (strategy : Strategy) (text : List Char) : Except SyntaxError Unit :=
  ((State.start text).run strategy (stepsPerCharacter * (text.length + 1))).getD (.ok ())

/-- Whether a text is exactly one statement with at most 100 openers open at once, or its first fault. -/
def check (text : String) : Except SyntaxError Unit := checkBy {} text.toList

end Esql.Syntax
