import Esql.Proofs.Tokens.Extent
import Esql.Syntax.Recognizer
import Mathlib.Logic.Relation

/-!
# `Proofs.Recognizer.Steps` — what a step of the recognizer can do

The recognizer may keep the token that it looked at last, and may look for an assignment target by trying to
read one. Neither shows: in a state whose kept token is the one that stands there (`State.Coherent`), a step
does what it would do if every look read the text anew and a target were found by a scan. So the steps are
described once, on states without a kept token: `Moves` says how a state may go on, `Stops` how a run may end,
and `step_spec` says that there is nothing else.

## Contents
- `State.bare`, `State.Coherent`, and looks in coherent states.
- `Moves`, `Stops` and `step_spec`.
- `Reaches`: the states of a run.
-/

namespace Esql.Syntax

open Relation (ReflTransGen)

variable (strategy : Strategy) {limit : Nat} {mode : Mode} {s s' : State}

namespace State

/-- A state without the token that it keeps. -/
def bare (s : State) : State := { s with ahead := none }

/-- The token that is kept is the one that stands there. -/
def Coherent (s : State) : Prop :=
  ∀ mode token, s.ahead = some (mode, token) → s.cursor.next mode = .ok token

theorem start_coherent (text : List Char) : (start text).Coherent := by
  intro mode token h
  cases h

theorem coherent_of_ahead (h : s.ahead = none) : s.Coherent := by
  intro mode token hahead
  rw [h] at hahead
  cases hahead

end State

open State

/-! ## Looks -/

/-- A look in a coherent state finds the token that stands there, and changes only what is kept. -/
theorem peek_ok (hs : s.Coherent) {token : Token} (h : s.cursor.next mode = .ok token) :
    ∃ ahead, s.peek strategy mode = .ok (token, { s with ahead }) ∧ { s with ahead }.Coherent := by
  have hlook : ∃ ahead, peek.look strategy mode s = .ok (token, { s with ahead }) ∧
      { s with ahead }.Coherent := by
    unfold peek.look
    rw [h]
    by_cases hkeeps : strategy.keepsToken = true
    · refine ⟨some (mode, token), ?_, ?_⟩
      · simp only [if_pos hkeeps]
        rfl
      · rintro m t ⟨⟩
        exact h
    · refine ⟨s.ahead, ?_, hs⟩
      simp only [if_neg hkeeps]
      rfl
  unfold peek
  split
  · rename_i m kept hahead
    split
    · rename_i hm
      subst hm
      obtain rfl : kept = token := Except.ok.inj ((hs m kept hahead).symm.trans h)
      exact ⟨s.ahead, rfl, hs⟩
    · exact hlook
  · exact hlook

/-- A look in a coherent state fails where no token stands. -/
theorem peek_error (hs : s.Coherent) {e : SyntaxError} (h : s.cursor.next mode = .error e) :
    s.peek strategy mode = .error e := by
  have hlook : peek.look strategy mode s = .error e := by
    unfold peek.look
    rw [h]
    rfl
  unfold peek
  split
  · rename_i m kept hahead
    split
    · rename_i hm
      subst hm
      rw [hs m kept hahead] at h
      cases h
    · exact hlook
  · exact hlook

/-! ## Assignment targets -/

/-- A target is found by trying to read one just where a scan finds one. -/
theorem target?_eq (chars : List Char) (hs : s.Coherent) :
    s.target? strategy chars =
      (Cursor.target? chars s.cursor).map fun there =>
        { s with cursor := there, ahead := none, expected := [] } := by
  induction chars generalizing s with
  | nil => rfl
  | cons c chars ih =>
      unfold Cursor.target? State.target?
      cases hpart : s.cursor.next .expression with
      | error e =>
          rw [peek_error strategy hs hpart]
          rfl
      | ok part =>
          obtain ⟨ahead, hpeek, -⟩ := peek_ok strategy hs hpart
          rw [hpeek]
          dsimp only
          by_cases hname : part.isAmong [.name, .kind .quotedIdentifier] = true
          · rw [if_pos hname, if_pos hname]
            have hadvance : ({ s with ahead }.advance part).Coherent := coherent_of_ahead rfl
            cases htoken : part.finish.next .expression with
            | error e =>
                rw [peek_error strategy hadvance htoken]
                rfl
            | ok token =>
                obtain ⟨ahead, hpeek, -⟩ := peek_ok strategy hadvance htoken
                rw [hpeek]
                dsimp only
                by_cases hdot : token.kind = .dot
                · rw [if_pos hdot, if_pos hdot, ih (coherent_of_ahead rfl)]
                  rfl
                · rw [if_neg hdot, if_neg hdot]
                  by_cases hassign : token.kind = .assign
                  · rw [if_pos hassign, if_pos hassign]
                    rfl
                  · rw [if_neg hassign, if_neg hassign]
                    rfl
          · rw [if_neg hname, if_neg hname]
            rfl

/-- The state behind the assignment target that stands at a place, if one does. -/
theorem skipTarget_eq (hs : s.Coherent) :
    s.skipTarget strategy =
      match Cursor.target? s.cursor.rest s.cursor with
      | some there => { s with cursor := there, ahead := none, expected := [] }
      | none => s := by
  unfold skipTarget
  by_cases htries : strategy.triesTarget = true
  · rw [if_pos htries, target?_eq strategy _ hs]
    cases Cursor.target? s.cursor.rest s.cursor <;> rfl
  · exact if_neg htries

/-! ## Steps -/

/-- The mode in which a plan reads the next token first of all, if it does. -/
def Plan.mode? : Plan → Option Mode
  | .reject mode _ | .look mode .. | .take mode .. | .extend mode .. => some mode
  | .opener _ => some .expression
  | _ => none

/-- How a state may go on. -/
inductive Moves (limit : Nat) (s : State) : State → Prop where
  | resume {plan stack} : s.plan = .done → s.stack = .resume plan :: stack →
      Moves limit s { s with plan, stack }
  | leave {stack} : s.plan = .done → s.stack = .leave :: stack →
      Moves limit s { s with depth := s.depth - 1, plan := .done, stack }
  | seen {mode wanted yes no token} : s.plan = .look mode wanted yes no →
      s.cursor.next mode = .ok token → token.isAmong wanted = true → Moves limit s { s with plan := yes }
  | unseen {mode wanted yes no token} : s.plan = .look mode wanted yes no →
      s.cursor.next mode = .ok token → token.isAmong wanted = false → Moves limit s { s with plan := no }
  | take {mode wanted yes no token} : s.plan = .take mode wanted yes no →
      s.cursor.next mode = .ok token → token.isAmong wanted = true →
      Moves limit s { s with cursor := token.finish, expected := [], plan := yes }
  | miss {mode wanted yes no token} : s.plan = .take mode wanted yes no →
      s.cursor.next mode = .ok token → token.isAmong wanted = false →
      Moves limit s { s with expected := s.expected ++ wanted, plan := no }
  | extend {mode wanted yes no token} : s.plan = .extend mode wanted yes no →
      s.cursor.next mode = .ok token → token.isAmong wanted = true →
      Moves limit s { s with cursor := token.finish, expected := [], plan := yes }
  | pass {mode wanted yes no token} : s.plan = .extend mode wanted yes no →
      s.cursor.next mode = .ok token → token.isAmong wanted = false → Moves limit s { s with plan := no }
  | call {rule next} : s.plan = .call rule next →
      Moves limit s { s with plan := rule.plan, stack := .resume next :: s.stack }
  | jump {rule} : s.plan = .jump rule → Moves limit s { s with plan := rule.plan }
  | opener {next token} : s.plan = .opener next → s.cursor.next .expression = .ok token →
      Moves limit s { s with opener := token, plan := next }
  | enter {rule next} : s.plan = .enter rule next → s.depth < limit →
      Moves limit s
        { s with
          depth := s.depth + 1
          plan := rule.plan
          stack := .leave :: .resume next :: s.stack }
  | target {next there} : s.plan = .target next → Cursor.target? s.cursor.rest s.cursor = some there →
      Moves limit s { s with cursor := there, expected := [], plan := next }
  | noTarget {next} : s.plan = .target next → Cursor.target? s.cursor.rest s.cursor = none →
      Moves limit s { s with plan := next }

/-- How a run may end. -/
inductive Stops (limit : Nat) (s : State) : Except SyntaxError Unit → Prop where
  | accept : s.plan = .done → s.stack = [] → Stops limit s (.ok ())
  | unrecognised {mode e} : s.plan.mode? = some mode → s.cursor.next mode = .error e →
      Stops limit s (.error e)
  | mismatch {mode wanted token} : s.plan = .reject mode wanted → s.cursor.next mode = .ok token →
      Stops limit s (.error ⟨token.start, .mismatched token.shown (s.expected ++ wanted)⟩)
  | tooDeep {rule next} : s.plan = .enter rule next → limit ≤ s.depth →
      Stops limit s (.error ⟨s.opener.start, .tooDeep limit s.opener.shown⟩)

/-- What a step of a coherent state leads to, in terms of states without a kept token. -/
def Progress.Describes (limit : Nat) (s : State) : Progress → Prop
  | goesOn s' => Moves limit s.bare s'.bare ∧ s'.Coherent
  | stops verdict => Stops limit s.bare verdict

/-- **What a step can do.** -/
theorem step_spec (hs : s.Coherent) : (s.step strategy).Describes strategy.limit s := by
  -- The plans that look at the next token stop together where there is none.
  have hwith : ∀ mode, s.plan.mode? = some mode → ∀ next,
      (∀ token ahead, s.cursor.next mode = .ok token → { s with ahead }.Coherent →
        (next token { s with ahead }).Describes strategy.limit s) →
      (s.withToken strategy mode next).Describes strategy.limit s := by
    intro mode hmode next hall
    unfold withToken
    cases hnext : s.cursor.next mode with
    | error e =>
        rw [peek_error strategy hs hnext]
        exact Stops.unrecognised hmode hnext
    | ok token =>
        obtain ⟨ahead, hpeek, hahead⟩ := peek_ok strategy hs hnext
        rw [hpeek]
        exact hall token ahead hnext hahead
  unfold step
  split
  case h_1 hplan =>
    unfold complete
    split
    · rename_i hstack
      exact Stops.accept hplan hstack
    · rename_i hstack
      exact ⟨.resume hplan hstack, hs⟩
    · rename_i hstack
      exact ⟨.leave hplan hstack, hs⟩
  case h_2 hplan =>
    refine hwith _ (by rw [hplan]; rfl) _ fun token ahead hnext _ => ?_
    exact Stops.mismatch hplan hnext
  case h_3 hplan =>
    refine hwith _ (by rw [hplan]; rfl) _ fun token ahead hnext hahead => ?_
    dsimp only
    split
    · rename_i hamong
      exact ⟨.seen hplan hnext hamong, hahead⟩
    · rename_i hamong
      exact ⟨.unseen hplan hnext (Bool.eq_false_iff.mpr hamong), hahead⟩
  case h_4 hplan =>
    refine hwith _ (by rw [hplan]; rfl) _ fun token ahead hnext hahead => ?_
    dsimp only
    split
    · rename_i hamong
      exact ⟨.take hplan hnext hamong, coherent_of_ahead rfl⟩
    · rename_i hamong
      exact ⟨.miss hplan hnext (Bool.eq_false_iff.mpr hamong), hahead⟩
  case h_5 hplan =>
    refine hwith _ (by rw [hplan]; rfl) _ fun token ahead hnext hahead => ?_
    dsimp only
    split
    · rename_i hamong
      exact ⟨.extend hplan hnext hamong, coherent_of_ahead rfl⟩
    · rename_i hamong
      exact ⟨.pass hplan hnext (Bool.eq_false_iff.mpr hamong), hahead⟩
  case h_6 hplan => exact ⟨.call hplan, hs⟩
  case h_7 hplan => exact ⟨.jump hplan, hs⟩
  case h_8 hplan =>
    refine hwith _ (by rw [hplan]; rfl) _ fun token ahead hnext hahead => ?_
    exact ⟨.opener hplan hnext, hahead⟩
  case h_9 hplan =>
    split
    · rename_i hdepth
      exact ⟨.enter hplan hdepth, hs⟩
    · rename_i hdepth
      exact Stops.tooDeep hplan (Nat.le_of_not_lt hdepth)
  case h_10 hplan =>
    rw [skipTarget_eq strategy hs]
    split
    · rename_i htarget
      exact ⟨.target hplan htarget, coherent_of_ahead rfl⟩
    · rename_i htarget
      exact ⟨.noTarget hplan htarget, hs⟩

/-! ## Runs -/

variable {strategy}

/-- One state comes behind another in a run. -/
def Reaches (strategy : Strategy) : State → State → Prop :=
  ReflTransGen fun s s' => s.step strategy = .goesOn s'

/-- The states of a run, without the tokens that they keep. -/
theorem Reaches.moves (hs : s.Coherent) (h : Reaches strategy s s') :
    ReflTransGen (Moves strategy.limit) s.bare s'.bare ∧ s'.Coherent := by
  induction h with
  | refl => exact ⟨.refl, hs⟩
  | tail _ hstep ih =>
      obtain ⟨hmoves, hs₁⟩ := ih
      have hspec := step_spec strategy hs₁
      rw [hstep] at hspec
      exact ⟨hmoves.tail hspec.1, hspec.2⟩

/-- A run that ends goes through states to the one that ends it. -/
theorem exists_reaches {n : Nat} {verdict : Except SyntaxError Unit}
    (h : s.run strategy n = some verdict) :
    ∃ s', Reaches strategy s s' ∧ s'.step strategy = .stops verdict := by
  induction n generalizing s with
  | zero => cases h
  | succ n ih =>
      unfold run at h
      split at h
      · rename_i hstep
        cases h
        exact ⟨s, .refl, hstep⟩
      · rename_i s₁ hstep
        obtain ⟨s', hreaches, hstops⟩ := ih h
        exact ⟨s', .head hstep hreaches, hstops⟩

/-- A run ends in one state only. -/
theorem Reaches.unique {s₁ s₂ : State} {v₁ v₂ : Except SyntaxError Unit} (h₁ : Reaches strategy s s₁)
    (hstops₁ : s₁.step strategy = .stops v₁) (h₂ : Reaches strategy s s₂)
    (hstops₂ : s₂.step strategy = .stops v₂) : s₁ = s₂ := by
  have hends : ∀ {a b v}, a.step strategy = .stops v → Reaches strategy a b → a = b := by
    intro a b v hstops hreaches
    rcases hreaches.cases_head with rfl | ⟨c, hstep, -⟩
    · rfl
    · rw [hstops] at hstep
      cases hstep
  have htotal := ReflTransGen.total_of_right_unique (fun a b c hb hc => by
    rw [hb] at hc
    cases hc
    rfl) h₁ h₂
  rcases htotal with h | h
  · exact hends hstops₁ h
  · exact (hends hstops₂ h).symm

/-! ## What holds of all plans at hand

A property of plans that holds of every part of every rule holds of every plan that a run comes to. -/

/-- A property of a plan and of all plans that are part of it. -/
def Plan.all (q : Plan → Bool) : Plan → Bool
  | done => q done
  | reject mode wanted => q (reject mode wanted)
  | look mode wanted yes no => q (look mode wanted yes no) && yes.all q && no.all q
  | take mode wanted yes no => q (take mode wanted yes no) && yes.all q && no.all q
  | extend mode wanted yes no => q (extend mode wanted yes no) && yes.all q && no.all q
  | call rule next => q (call rule next) && next.all q
  | jump rule => q (jump rule)
  | opener next => q (opener next) && next.all q
  | enter rule next => q (enter rule next) && next.all q
  | target next => q (target next) && next.all q

theorem Plan.all_self {q : Plan → Bool} {plan : Plan} (h : plan.all q = true) : q plan = true := by
  cases plan <;> simp_all [Plan.all]

/-- A property of all plans at hand and of their parts. -/
structure State.All (q : Plan → Bool) (s : State) : Prop where
  plan : s.plan.all q = true
  stack : ∀ plan, Frame.resume plan ∈ s.stack → plan.all q = true

theorem Moves.all {q : Plan → Bool} (hq : ∀ rule : Rule, rule.plan.all q = true) (h : Moves limit s s')
    (hs : s.All q) : s'.All q := by
  obtain ⟨hplan, hstack⟩ := hs
  cases h with
  | resume hdone hs =>
      rw [hs] at hstack
      exact ⟨hstack _ (.head _), fun p hp => hstack p (.tail _ hp)⟩
  | leave hdone hs =>
      rw [hs] at hstack
      rw [hdone] at hplan
      exact ⟨hplan, fun p hp => hstack p (.tail _ hp)⟩
  | seen hs _ _ | unseen hs _ _ | take hs _ _ | miss hs _ _ | extend hs _ _ | pass hs _ _ =>
      simp only [hs, Plan.all, Bool.and_eq_true] at hplan
      exact ⟨by simp only [hplan], hstack⟩
  | opener hs _ | target hs _ | noTarget hs _ =>
      simp only [hs, Plan.all, Bool.and_eq_true] at hplan
      exact ⟨hplan.2, hstack⟩
  | jump hs => exact ⟨hq _, hstack⟩
  | call hs | enter hs _ =>
      simp only [hs, Plan.all, Bool.and_eq_true] at hplan
      refine ⟨hq _, fun p hp => ?_⟩
      simp only [List.mem_cons, Frame.resume.injEq, reduceCtorEq, false_or] at hp
      rcases hp with rfl | hp
      · exact hplan.2
      · exact hstack p hp

theorem start_all {q : Plan → Bool} (hq : ∀ rule : Rule, rule.plan.all q = true) (text : List Char) :
    (start text).All q :=
  ⟨hq .statement, fun _ h => absurd h List.not_mem_nil⟩

/-- A property of all parts of all rules holds in every state of a run. -/
theorem runs_all {q : Plan → Bool} (hq : ∀ rule : Rule, rule.plan.all q = true) {text : List Char}
    (h : ReflTransGen (Moves limit) (start text) s) : s.All q := by
  induction h with
  | refl => exact start_all hq text
  | tail _ hmoves ih => exact hmoves.all hq ih

end Esql.Syntax
