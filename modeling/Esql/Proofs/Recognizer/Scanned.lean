import Esql.Proofs.Recognizer.Foresight

/-!
# `Proofs.Recognizer.Scanned` — what has been taken of a text

The recognizer has taken a text up to some place when a state of its run stands there, or when it has read so far
while it looked for an assignment target (`Consumes`). A target that is found is skipped, and no state stands
inside it. One that is not found is read again as a condition, and the run comes to every place to which the
scan came (`Scans.visited`): the name that was scanned is all that stands in front of the operators.

## Contents
- `Scans`: how far a target has been read, and what is missing.
- `Quiet`: moves that look for no target.
- `InName`: a run inside of a name, and how it goes on.
- `Consumes`.
-/

namespace Esql.Syntax

open State Look
open Relation (ReflTransGen)

variable {limit : Nat} {s z : State} {a b c d : Cursor} {named : Bool}

/-! ## Scans -/

/-- Parts of a name and dots between them, from one place up to another; `named` says whether a part was read
last. -/
inductive Scans : Cursor → Bool → Cursor → Prop where
  | first {a b : Cursor} : Takes .expression [.name, .kind .quotedIdentifier] a b → Scans a true b
  | dot {a b c : Cursor} : Scans a true b → Takes .expression [.kind .dot] b c → Scans a false c
  | part {a b c : Cursor} : Scans a false b → Takes .expression [.name, .kind .quotedIdentifier] b c →
      Scans a true c

/-- What is missing of a target. -/
def Finishes : Bool → Cursor → Cursor → Prop
  | true => GoesOnTo
  | false => Targets

theorem targets_iff_behind (h : Takes .expression [.name, .kind .quotedIdentifier] a b) :
    Targets a d ↔ GoesOnTo b d := by
  rw [targets_iff_goesOnTo]
  constructor
  · rintro ⟨c, hname, hgoes⟩
    exact takes_unique h hname ▸ hgoes
  · exact fun hgoes => ⟨b, h, hgoes⟩

theorem goesOnTo_iff_behind (h : Takes .expression [.kind .dot] b c) : GoesOnTo b d ↔ Targets c d := by
  constructor
  · rintro (hassign | ⟨e, hdot, hrest⟩)
    · exact absurd hassign.sees (h.not_sees (by decide))
    · exact takes_unique h hdot ▸ hrest
  · exact fun hrest => .inr ⟨c, h, hrest⟩

/-- A target stands where it was looked for, if it is completed where it has been read so far. -/
theorem Scans.targets_iff (h : Scans a named b) : Targets a d ↔ Finishes named b d := by
  induction h with
  | first hname => exact targets_iff_behind hname
  | dot _ hdot ih => exact ih.trans (goesOnTo_iff_behind hdot)
  | part _ hname ih => exact ih.trans (targets_iff_behind hname)

/-! ## Names that are read again -/

def Plan.isTarget : Plan → Bool
  | target _ => true
  | _ => false

/-- A move from a state that looks for no target. -/
structure Quiet (limit : Nat) (s s' : State) : Prop where
  plan : s.plan.isTarget = false
  moves : Moves limit s s'

theorem quiet_runs (h : ReflTransGen (Quiet limit) s z) : ReflTransGen (Moves limit) s z :=
  ReflTransGen.mono (fun _ _ => Quiet.moves) _ _ h

/-- The run is inside of a name: behind its first part, where it might be a function, behind another part, or
behind a dot. -/
inductive InName : Bool → State → Prop where
  | first {z : State} :
      z.plan = .extend .expression [.kind .leftParen] (.enter .arguments .done) (.jump .qualifiedTail) →
      InName true z
  | part {z : State} {stack : List Frame} : z.plan = .done → z.stack = .resume (.jump .qualifiedTail) :: stack →
      InName true z
  | dot {z : State} : z.plan = .call .identifier (.jump .qualifiedTail) → InName false z

/-- The state comes to a place inside of a name, and looks for no target on the way. -/
def ComesTo (limit : Nat) (s : State) (named : Bool) (b : Cursor) : Prop :=
  ∃ z, ReflTransGen (Quiet limit) s z ∧ z.cursor = b ∧ InName named z

/-- A condition that begins with a name is read as that name. -/
theorem comesTo_first (hplan : s.plan = .jump .boolean)
    (h : Takes .expression [.name, .kind .quotedIdentifier] s.cursor b) : ComesTo limit s true b := by
  have hother : ∀ token others, s.cursor.next .expression = .ok token →
      (∀ t ∈ [.name, .kind .quotedIdentifier], ∀ u ∈ others, Terminal.excludes t u = true) →
      token.isAmong others = false := fun token others hnext hexcludes =>
    Bool.eq_false_iff.mpr fun hamong => h.not_sees hexcludes ⟨token, hnext, hamong⟩
  obtain ⟨token, hnext, hamong, rfl⟩ := h
  have hnot := hother token [.word .NOT] hnext (by decide)
  have hsign := hother token [.kind .minus, .kind .plus] hnext (by decide)
  have hparen := hother token [.kind .leftParen] hnext (by decide)
  have hconstant := hother token
    [.kind .integer, .kind .decimal, .kind .string, .kind .parameter, .kind .leftBracket, .word .NULL, .word .TRUE,
     .word .FALSE] hnext (by decide)
  -- From `boolean` down to `unary` each rule begins with the next; `primary` looks for all else before a name.
  refine ⟨_, .head ⟨by rw [hplan]; rfl, .jump hplan⟩ <| .head ⟨rfl, .call rfl⟩ <| .head ⟨rfl, .call rfl⟩ <|
    .head ⟨rfl, .opener rfl hnext⟩ <| .head ⟨rfl, .miss rfl hnext hnot⟩ <| .head ⟨rfl, .jump rfl⟩ <|
    .head ⟨rfl, .call rfl⟩ <| .head ⟨rfl, .call rfl⟩ <| .head ⟨rfl, .call rfl⟩ <| .head ⟨rfl, .call rfl⟩ <|
    .head ⟨rfl, .opener rfl hnext⟩ <| .head ⟨rfl, .miss rfl hnext hsign⟩ <| .head ⟨rfl, .call rfl⟩ <|
    .head ⟨rfl, .opener rfl hnext⟩ <| .head ⟨rfl, .pass rfl hnext hparen⟩ <|
    .head ⟨rfl, .unseen rfl hnext hconstant⟩ <| .single ⟨rfl, .extend rfl hnext hamong⟩, rfl, .first rfl⟩

theorem InName.comesTo_dot (h : InName true z) (hdot : Takes .expression [.kind .dot] z.cursor c) :
    ComesTo limit z false c := by
  have htail : ∃ y, ReflTransGen (Quiet limit) z y ∧ y.cursor = z.cursor ∧ y.plan = .jump .qualifiedTail := by
    cases h with
    -- A dot is no parenthesis, so the first part of the name is no function.
    | first hplan =>
        obtain ⟨token, hnext, hparen⟩ :
            ∃ token, z.cursor.next .expression = .ok token ∧ token.isAmong [.kind .leftParen] = false := by
          obtain ⟨token, hnext, -, -⟩ := id hdot
          exact ⟨token, hnext, Bool.eq_false_iff.mpr fun hparen => hdot.not_sees (by decide) ⟨token, hnext, hparen⟩⟩
        exact ⟨_, .single ⟨by rw [hplan]; rfl, .pass hplan hnext hparen⟩, rfl, rfl⟩
    | part hplan hframe => exact ⟨_, .single ⟨by rw [hplan]; rfl, .resume hplan hframe⟩, rfl, rfl⟩
  obtain ⟨y, hruns, hcursor, hplan⟩ := htail
  rw [← hcursor] at hdot
  obtain ⟨token, hnext, hamong, rfl⟩ := hdot
  exact ⟨_, hruns.trans <| .head ⟨by rw [hplan]; rfl, .jump hplan⟩ <| .single ⟨rfl, .extend rfl hnext hamong⟩, rfl,
    .dot rfl⟩

theorem InName.comesTo_part (h : InName false z)
    (hname : Takes .expression [.name, .kind .quotedIdentifier] z.cursor c) : ComesTo limit z true c := by
  obtain ⟨token, hnext, hamong, rfl⟩ := hname
  cases h with
  | dot hplan =>
      exact ⟨_, .head ⟨by rw [hplan]; rfl, .call hplan⟩ <| .single ⟨rfl, .take rfl hnext hamong⟩, rfl, .part rfl rfl⟩

/-- A condition is read as far as it was scanned for a target. -/
theorem Scans.comesTo (h : Scans a named b) (ha : s.cursor = a) (hplan : s.plan = .jump .boolean) :
    ComesTo limit s named b := by
  induction h with
  | first hname => exact comesTo_first hplan (ha ▸ hname)
  | dot _ hdot ih =>
      obtain ⟨z, hruns, rfl, hz⟩ := ih
      obtain ⟨y, hruns', hy⟩ := hz.comesTo_dot hdot
      exact ⟨y, hruns.trans hruns', hy⟩
  | part _ hname ih =>
      obtain ⟨z, hruns, rfl, hz⟩ := ih
      obtain ⟨y, hruns', hy⟩ := hz.comesTo_part hname
      exact ⟨y, hruns.trans hruns', hy⟩

/-- A condition follows where a target is looked for. -/
theorem next_of_target {text : List Char} {next : Plan} (h : ReflTransGen (Moves limit) (start text) s)
    (hplan : s.plan = .target next) : next = .jump .boolean := by
  have hfits := (runs_fit h).plan
  simp only [State.config, hplan, Plan.fits, Bool.and_eq_true] at hfits
  obtain ⟨-, hboolean⟩ := hfits
  split at hboolean
  · rfl
  · cases hboolean

/-- **Where no target stands, the run comes to every place to which one was scanned.** -/
theorem Scans.visited {text : List Char} {next : Plan} (hruns : ReflTransGen (Moves limit) (start text) s)
    (hplan : s.plan = .target next) (h : Scans s.cursor named b) (hnone : ∀ d, ¬ Targets s.cursor d) :
    ∃ z, ReflTransGen (Moves limit) (start text) z ∧ z.cursor = b := by
  obtain rfl := next_of_target hruns hplan
  have hscan : Cursor.target? s.cursor.rest s.cursor = none :=
    Option.eq_none_iff_forall_ne_some.mpr fun d hd => hnone d (target?_eq_some_iff.mp hd)
  have hmoves : Moves limit s _ := .noTarget hplan hscan
  have hcomes : ComesTo limit { s with plan := .jump .boolean } named b := h.comesTo rfl rfl
  obtain ⟨z, hrest, hcursor, -⟩ := hcomes
  exact ⟨z, (hruns.tail hmoves).trans (quiet_runs hrest), hcursor⟩

/-! ## Places that are reached -/

/-- The recognizer has taken the text up to this place, at some time: a state stands there, or one that looks for
an assignment target has read so far. -/
inductive Consumes (strategy : Strategy) (text : List Char) (here : Cursor) : Prop where
  | state {s : State} : Reaches strategy (start text) s → s.cursor = here → Consumes strategy text here
  | scan {s : State} {next : Plan} {named : Bool} : Reaches strategy (start text) s → s.plan = .target next →
      Scans s.cursor named here → Consumes strategy text here

/-- A state stands at the place, or it lies in a target that is found. -/
inductive Passes (limit : Nat) (text : List Char) (here : Cursor) : Prop where
  | state {s : State} : ReflTransGen (Moves limit) (start text) s → s.cursor = here → Passes limit text here
  | target {s : State} {next : Plan} {named : Bool} {d : Cursor} : ReflTransGen (Moves limit) (start text) s →
      s.plan = .target next → Scans s.cursor named here → Targets s.cursor d → Passes limit text here

theorem Consumes.passes {strategy : Strategy} {text : List Char} (h : Consumes strategy text b) :
    Passes strategy.limit text b := by
  cases h with
  | state hreaches hcursor => exact .state (hreaches.moves (start_coherent text)).1 hcursor
  | @scan s next named hreaches hplan hscans =>
      have hruns := (hreaches.moves (start_coherent text)).1
      by_cases htarget : ∃ d, Targets s.cursor d
      · obtain ⟨d, htarget⟩ := htarget
        exact .target hruns hplan hscans htarget
      · obtain ⟨z, hruns', hcursor⟩ := hscans.visited hruns hplan fun d hd => htarget ⟨d, hd⟩
        exact .state hruns' hcursor

end Esql.Syntax
