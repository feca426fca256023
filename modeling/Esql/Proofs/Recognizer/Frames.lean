import Esql.Proofs.Recognizer.Nesting

/-!
# `Proofs.Recognizer.Frames` — the stack stays small

A phrase that is called leaves a frame behind, which waits for it to be complete. Rules that call each other in a
circle enter a level of nesting on the way round, so between two levels only so many frames are put on the stack as
rules can call down: no rule is higher than twelve frames (`Rule.height`). As no more levels are open than may be, the
stack has a bound that no text exceeds (`stack_bounded`).

## Contents
- `Rule.height`, `Plan.height`: the frames that are put on the stack before the next level.
- `State.Roomy`, and `stack_bounded`.
-/

namespace Esql.Syntax

open State
open Relation (ReflTransGen)

variable {limit : Nat} {s z : State} {text : List Char}

/-! ## Heights -/

/-- How many frames one level of nesting may take. -/
def framesPerLevel : Nat := 12

/-- A bound for the frames that a rule may put on the stack before it enters a level of nesting. -/
def Rule.height : Rule → Nat
  | statement | pipeline => 12
  | command | aggregates => 11
  | sourceCommand | aggregate | grouping | sortKey | nullsOrder | sortKeys | fields | parenthesized | arguments
  | argumentList => 10
  | field | boolean => 9
  | conjunction => 8
  | negation | predicate | inList | inItems => 7
  | comparison => 6
  | additive => 5
  | multiplicative => 4
  | unary => 3
  | changePointOutput | qualifiedNames | primary => 2
  | indexList | renameField | renameList | dissectOption | enrichKey | enrichFields | enrichField | enrichFieldList
  | qualifiedName | qualifiedTail | namePatterns | casts | entries | entryList => 1
  | metadata | metadataFields | indexPattern | indexSelector | grokPatterns | identifier | namePattern | likePatterns
  | likeList | constant | array | numbers | numberValue | numberList | booleans | booleanList | strings => 0

/-- A bound for the frames that a plan may put on the stack before a rule that it enters goes on. -/
def Plan.height : Plan → Nat
  | done | reject .. => 0
  | look _ _ yes no | take _ _ yes no | extend _ _ yes no => max yes.height no.height
  | call rule next => max (1 + rule.height) next.height
  | jump rule => rule.height
  | opener next | target next => next.height
  | enter _ next => max 2 next.height

theorem Rule.plan_height_le (rule : Rule) : rule.plan.height ≤ rule.height := by
  cases rule <;> decide

theorem Rule.height_le (rule : Rule) : rule.height ≤ framesPerLevel := by
  cases rule <;> decide

/-- What may still be put on the stack when a frame has been taken from it. -/
def Frame.height : Frame → Nat
  | resume plan => plan.height
  | leave => 0

/-! ## Room on the stack -/

/-- How many frames a stack may have, by the levels that are open. -/
def room (stack : List Frame) : Nat := framesPerLevel * ((stack.map Frame.levels).sum + 1)

theorem room_resume (plan : Plan) (stack : List Frame) : room (.resume plan :: stack) = room stack := by
  rw [room, List.map_cons, List.sum_cons, Frame.levels, Nat.zero_add]
  rfl

theorem room_leave (stack : List Frame) : room (.leave :: stack) = room stack + framesPerLevel := by
  rw [room, List.map_cons, List.sum_cons, Frame.levels, Nat.add_comm 1, Nat.mul_succ]
  rfl

/-- There is room on the stack for what the plan may put there, and there was for what each frame may put there. -/
structure State.Roomy (s : State) : Prop where
  plan : s.stack.length + s.plan.height ≤ room s.stack
  below : ∀ frame stack, frame :: stack <:+ s.stack → stack.length + frame.height ≤ room stack

/-- Room is left when a frame has been put on the stack that leaves room for itself. -/
theorem below_cons {frame : Frame} {stack : List Frame} (hroom : stack.length + frame.height ≤ room stack)
    (hbelow : ∀ frame' stack', frame' :: stack' <:+ stack → stack'.length + frame'.height ≤ room stack') :
    ∀ frame' stack', frame' :: stack' <:+ frame :: stack → stack'.length + frame'.height ≤ room stack' := by
  intro frame' stack' hsuffix
  rcases List.suffix_cons_iff.mp hsuffix with hhead | hsuffix
  · obtain ⟨rfl, rfl⟩ := List.cons.inj hhead
    exact hroom
  · exact hbelow _ _ hsuffix

theorem Moves.roomy (h : Moves limit s z) (hs : s.Roomy) : z.Roomy := by
  obtain ⟨hplan, hbelow⟩ := hs
  cases h with
  | resume _ hframe | leave _ hframe =>
      rw [hframe] at hbelow
      exact ⟨hbelow _ _ List.suffix_rfl, fun _ _ hsuffix => hbelow _ _ (hsuffix.trans (List.suffix_cons _ _))⟩
  | seen hthis | unseen hthis | take hthis | miss hthis | extend hthis | pass hthis =>
      rw [hthis, Plan.height] at hplan
      refine ⟨?_, hbelow⟩
      dsimp only
      omega
  | opener hthis | target hthis | noTarget hthis =>
      rw [hthis, Plan.height] at hplan
      exact ⟨hplan, hbelow⟩
  | @jump rule hthis =>
      rw [hthis, Plan.height] at hplan
      exact ⟨Nat.le_trans (Nat.add_le_add_left rule.plan_height_le _) hplan, hbelow⟩
  | @call rule next hthis =>
      have hrule := rule.plan_height_le
      rw [hthis, Plan.height] at hplan
      refine ⟨?_, below_cons ?_ hbelow⟩
      · rw [room_resume, List.length_cons]
        dsimp only
        omega
      · rw [Frame.height]
        omega
  -- The level that is entered has room for all that the rule may put there, besides the two frames of the level.
  | @enter rule next hthis =>
      have hrule := Nat.le_trans rule.plan_height_le rule.height_le
      rw [hthis, Plan.height] at hplan
      refine ⟨?_, below_cons ?_ (below_cons ?_ hbelow)⟩
      · rw [room_leave, room_resume, List.length_cons, List.length_cons]
        dsimp only
        omega
      · rw [room_resume, Frame.height, List.length_cons]
        omega
      · rw [Frame.height]
        omega

theorem start_roomy (text : List Char) : (start text).Roomy := by
  refine ⟨?_, fun frame stack hsuffix => ?_⟩
  · show 0 + Rule.statement.plan.height ≤ framesPerLevel
    decide
  · cases List.suffix_nil.mp hsuffix

theorem runs_roomy (h : ReflTransGen (Moves limit) (start text) s) : s.Roomy := by
  induction h with
  | refl => exact start_roomy text
  | tail _ hmoves ih => exact hmoves.roomy ih

/-- **The stack has a bound that no text exceeds.** -/
theorem stack_bounded (h : ReflTransGen (Moves limit) (start text) s) :
    s.stack.length ≤ framesPerLevel * (limit + 1) := by
  have hroom : room s.stack ≤ framesPerLevel * (limit + 1) :=
    Nat.mul_le_mul_left framesPerLevel (Nat.succ_le_succ (runs_count h).le)
  have hplan := (runs_roomy h).plan
  omega

end Esql.Syntax
