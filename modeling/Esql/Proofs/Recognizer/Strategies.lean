import Esql.Proofs.Recognizer.Lockstep

/-!
# `Proofs.Recognizer.Strategies` — how the recognizer looks ahead does not show

The token that is kept for the next look is filed under the mode in which it was read, but not under its place. So
whatever moves the place must drop it, and whatever goes back must bring back the one that belongs there. Both are so in
all states that a run comes to, also in those in the middle of an attempt to read an assignment target (`Attempts`).

A recognizer that keeps no token, and one that finds a target by a scan, go through the same states but for the kept
token: one step of the first is one step of the other (`step_alike`), so their runs go side by side to the same end.

## Contents
- `Attempts`: the states of an attempt.
- `Alike` and `Progress.Alike`: the same but for the kept token.
- `strategies_agree`.
-/

namespace Esql.Syntax

open State
open Relation (ReflTransGen)

variable {strategy strategy' : Strategy} {mode : Mode} {token : Token} {s s' z z' : State}

/-! ## Attempts -/

/-- A look that succeeds finds the token that stands there, whether it reads it or has kept it. -/
theorem peek_spec (hs : s.Coherent) (h : s.peek strategy mode = .ok (token, z)) :
    s.cursor.next mode = .ok token ∧ z.bare = s.bare ∧ z.Coherent := by
  cases hnext : s.cursor.next mode with
  | error e =>
      rw [peek_error strategy hs hnext] at h
      cases h
  | ok found =>
      obtain ⟨ahead, hpeek, hahead⟩ := peek_ok strategy hs hnext
      rw [hpeek] at h
      cases h
      exact ⟨rfl, rfl, hahead⟩

/-- `Attempts strategy s z`: an attempt to read something that begins in `s` may come to `z`. It looks at tokens, in any
    modes, and goes behind those that it has looked at. -/
inductive Attempts (strategy : Strategy) (s : State) : State → Prop
  | here : Attempts strategy s s
  | look {mode : Mode} {token : Token} {z z' : State} : Attempts strategy s z →
      z.peek strategy mode = .ok (token, z') → Attempts strategy s z'
  | read {mode : Mode} {token : Token} {z z' : State} : Attempts strategy s z →
      z.peek strategy mode = .ok (token, z') → Attempts strategy s (z'.advance token)

/-- What an attempt goes through is coherent, wherever it is given up. -/
theorem Attempts.coherent (hs : s.Coherent) (h : Attempts strategy s z) : z.Coherent := by
  induction h with
  | here => exact hs
  | look _ hpeek ih =>
      obtain ⟨-, -, hz⟩ := peek_spec ih hpeek
      exact hz
  | read _ _ _ => exact coherent_of_ahead rfl

theorem Attempts.trans (h : Attempts strategy s z) (h' : Attempts strategy z z') : Attempts strategy s z' := by
  induction h' with
  | here => exact h
  | look _ hpeek ih => exact .look ih hpeek
  | read _ hpeek ih => exact .read ih hpeek

/-- A target is found by such an attempt. -/
theorem attempts_of_target? {chars : List Char} (h : s.target? strategy chars = some z) : Attempts strategy s z := by
  induction chars generalizing s with
  | nil => cases h
  | cons c chars ih =>
      unfold State.target? at h
      split at h
      · cases h
      · next part s₁ hpart =>
          split at h
          · have hname : Attempts strategy s (s₁.advance part) := .read .here hpart
            split at h
            · cases h
            · next token s₂ htoken =>
                have hbehind : Attempts strategy s (s₂.advance token) := .read hname htoken
                split at h
                · exact hbehind.trans (ih h)
                · split at h
                  · cases h
                    exact hbehind
                  · cases h
          · cases h

/-- An attempt to read a target leads behind the one that stands there. If none does, it leaves the state as it was. -/
theorem skipTarget_cases (hs : s.Coherent) :
    (∃ there, Targets s.cursor there ∧
        s.skipTarget strategy = { s with cursor := there, ahead := none, expected := [] }) ∨
      (∀ there, ¬Targets s.cursor there) ∧ s.skipTarget strategy = s := by
  rw [skipTarget_eq strategy hs]
  cases htarget : Cursor.target? s.cursor.rest s.cursor with
  | some there => exact .inl ⟨there, target?_eq_some_iff.mp htarget, rfl⟩
  | none =>
      refine .inr ⟨fun there hthere => ?_, rfl⟩
      cases htarget.symm.trans (target?_eq_some_iff.mpr hthere)

/-! ## Runs side by side -/

/-- Two states that are the same but for the token that they keep, which is in both the one that stands there. -/
structure Alike (s s' : State) : Prop where
  bare : s.bare = s'.bare
  left : s.Coherent
  right : s'.Coherent

/-- Two steps come to states that are alike, or stop with the same verdict. -/
inductive Progress.Alike : Progress → Progress → Prop
  | goesOn {z z' : State} : Syntax.Alike z z' → Alike (.goesOn z) (.goesOn z')
  | stops {verdict : Except SyntaxError Unit} : Alike (.stops verdict) (.stops verdict)

theorem start_alike (text : List Char) : Alike (start text) (start text) :=
  ⟨rfl, start_coherent text, start_coherent text⟩

/-- States that are alike go on alike: what they may do is described without the kept token, and is only one thing. -/
theorem step_alike (hlimit : strategy.limit = strategy'.limit) (h : Alike s s') :
    (s.step strategy).Alike (s'.step strategy') := by
  have hspec := step_spec strategy h.left
  have hspec' := step_spec strategy' h.right
  cases hstep : s.step strategy with
  | goesOn z =>
      rw [hstep] at hspec
      obtain ⟨hmoves, hz⟩ := hspec
      cases hstep' : s'.step strategy' with
      | goesOn z' =>
          rw [hstep'] at hspec'
          obtain ⟨hmoves', hz'⟩ := hspec'
          rw [← h.bare, ← hlimit] at hmoves'
          exact .goesOn ⟨hmoves.unique hmoves', hz, hz'⟩
      | stops verdict =>
          rw [hstep'] at hspec'
          have hstops : Stops strategy'.limit s'.bare verdict := hspec'
          rw [← h.bare, ← hlimit] at hstops
          exact absurd hmoves hstops.ends
  | stops verdict =>
      rw [hstep] at hspec
      have hstops : Stops strategy.limit s.bare verdict := hspec
      cases hstep' : s'.step strategy' with
      | goesOn z' =>
          rw [hstep'] at hspec'
          obtain ⟨hmoves', -⟩ := hspec'
          rw [← h.bare, ← hlimit] at hmoves'
          exact absurd hmoves' hstops.ends
      | stops verdict' =>
          rw [hstep'] at hspec'
          have hstops' : Stops strategy'.limit s'.bare verdict' := hspec'
          rw [← h.bare, ← hlimit] at hstops'
          rw [hstops.unique hstops']
          exact .stops

/-- By induction on the number of steps: runs go side by side. -/
theorem run_alike (hlimit : strategy.limit = strategy'.limit) (h : Alike s s') (n : Nat) :
    s.run strategy n = s'.run strategy' n := by
  induction n generalizing s s' with
  | zero => rfl
  | succ n ih =>
      have hstep := step_alike hlimit h
      rw [run, run]
      generalize s.step strategy = one at hstep ⊢
      generalize s'.step strategy' = other at hstep ⊢
      cases hstep with
      | goesOn hz => exact ih hz
      | stops => rfl

/-- The states of a run are those of a run with another strategy, but for the token that is kept. -/
theorem Reaches.alike (hlimit : strategy.limit = strategy'.limit) (h : Alike s s') (hreaches : Reaches strategy s z) :
    ∃ z', Reaches strategy' s' z' ∧ Alike z z' := by
  induction hreaches with
  | refl => exact ⟨s', .refl, h⟩
  | @tail y z _ hstep ih =>
      obtain ⟨y', hreaches', hy⟩ := ih
      have hprogress := step_alike hlimit hy
      rw [hstep] at hprogress
      generalize hother : y'.step strategy' = other at hprogress
      cases hprogress with
      | goesOn hz => exact ⟨_, hreaches'.tail hother, hz⟩

/-- **How the recognizer looks ahead does not show.** In every state that a run on a text comes to, and in every state
    of an attempt that begins there, a token that is kept for a mode is the one that stands there in that mode; and an
    attempt to read an assignment target leads behind the name and the `=` that stand there, or leaves the state as it
    was. With any two strategies that allow the same nesting, runs on the text go through states that differ in nothing
    but the kept token, and have the same verdict, with the same place and the same message. So the check does what it
    would do without a kept token, and what it would do if targets were found by a scan. -/
theorem strategies_agree (text : String) :
    (∀ (strategy : Strategy) (s : State), Reaches strategy (start text.toList) s →
      (∀ mode token, s.ahead = some (mode, token) → s.cursor.next mode = .ok token) ∧
      (∀ z, Attempts strategy s z → ∀ mode token, z.ahead = some (mode, token) → z.cursor.next mode = .ok token) ∧
      (∀ z, s.target? strategy s.cursor.rest = some z → Attempts strategy s z) ∧
      ((∃ there, Targets s.cursor there ∧
          s.skipTarget strategy = { s with cursor := there, ahead := none, expected := [] }) ∨
        (∀ there, ¬Targets s.cursor there) ∧ s.skipTarget strategy = s)) ∧
    (∀ strategy strategy' : Strategy, strategy.limit = strategy'.limit →
      (∀ s, Reaches strategy (start text.toList) s →
        ∃ s', Reaches strategy' (start text.toList) s' ∧ s'.bare = s.bare) ∧
      checkBy strategy text.toList = checkBy strategy' text.toList) ∧
    check text = checkBy { keepsToken := false } text.toList ∧
    check text = checkBy { triesTarget := false } text.toList := by
  have hcheck : ∀ strategy strategy' : Strategy, strategy.limit = strategy'.limit →
      checkBy strategy text.toList = checkBy strategy' text.toList := by
    intro strategy strategy' hlimit
    rw [checkBy, checkBy, run_alike hlimit (start_alike text.toList)]
  refine ⟨?_, ?_, hcheck {} { keepsToken := false } rfl, hcheck {} { triesTarget := false } rfl⟩
  · intro strategy s hreaches
    obtain ⟨-, hs⟩ := hreaches.moves (start_coherent text.toList)
    exact ⟨hs, fun z hz => hz.coherent hs, fun z hz => attempts_of_target? hz, skipTarget_cases hs⟩
  · intro strategy strategy' hlimit
    refine ⟨?_, hcheck strategy strategy' hlimit⟩
    intro s hreaches
    obtain ⟨s', hreaches', halike⟩ := hreaches.alike hlimit (start_alike text.toList)
    exact ⟨s', hreaches', halike.bare.symm⟩

end Esql.Syntax
