import Esql.Proofs.Grammar.Weight
import Esql.Proofs.Recognizer.Steps
import Esql.Proofs.Recognizer.Targets
import Mathlib.Algebra.GroupWithZero.Nat

/-!
# `Proofs.Recognizer.Fuel` — the steps suffice

The recognizer is given 64 steps for each character and for the end of the text. They suffice: the
potential of a state, what its plans weigh and 64 for each character that follows, is lowered by every step,
since no rule weighs as much as 64.
-/

namespace Esql.Syntax

open State
open Relation (ReflTransGen)

variable (strategy : Strategy) {limit : Nat} {s s' : State}

/-! ## The end of the text is never taken -/

/-- A plan that takes a token does not take the end of the text. -/
def Plan.sparesEnd : Plan → Bool
  | take _ wanted _ _ | extend _ wanted _ _ => !wanted.contains (.kind .endOfText)
  | _ => true

theorem Rule.spares_end (rule : Rule) : rule.plan.all Plan.sparesEnd = true := by
  cases rule <;> rfl

/-! ## Potential -/

def Frame.cost : Frame → Nat
  | resume plan => plan.cost
  | leave => 1

/-- A bound for the steps that may follow. -/
def State.potential (s : State) : Nat :=
  stepsPerCharacter * s.cursor.rest.length + s.plan.cost + (s.stack.map Frame.cost).sum

/-- Every step lowers the potential. -/
theorem Moves.potential_lt (h : Moves limit s s') (hs : s.All Plan.sparesEnd) :
    s'.potential < s.potential := by
  have hspares := Plan.all_self hs.plan
  unfold potential
  cases h with
  | resume hplan hstack =>
      simp only [hplan, hstack, Plan.cost, Frame.cost, List.map_cons, List.sum_cons]
      omega
  | leave hplan hstack =>
      simp only [hplan, hstack, Plan.cost, Frame.cost, List.map_cons, List.sum_cons]
      omega
  | seen hplan _ _ | unseen hplan _ _ | miss hplan _ _ | pass hplan _ _ | opener hplan _ | noTarget hplan _ =>
      simp only [hplan, Plan.cost]
      omega
  | @take _ _ yes _ _ hplan hnext hamong | @extend _ _ yes _ _ hplan hnext hamong =>
      have hpos := yes.cost_pos
      simp only [hplan, Plan.sparesEnd, Bool.not_eq_true'] at hspares
      have hlt := finish_length_lt hnext (text_ne_nil hnext hamong hspares)
      simp only [hplan, Plan.cost, stepsPerCharacter]
      omega
  | @call rule _ hplan | @enter rule _ hplan _ =>
      have hle := rule.cost_le_weight
      simp only [hplan, Plan.cost, Frame.cost, List.map_cons, List.sum_cons]
      omega
  | @jump rule hplan =>
      have hle := rule.cost_le_weight
      simp only [hplan, Plan.cost]
      omega
  | target hplan htarget =>
      have hlt := (target?_eq_some_iff.mp htarget).length_lt
      simp only [hplan, Plan.cost, stepsPerCharacter]
      omega

/-! ## Runs end -/

/-- A run that may take as many steps as the potential says ends. -/
theorem run_ends {n : Nat} (hs : s.Coherent) (hall : s.bare.All Plan.sparesEnd) (hn : s.potential ≤ n) :
    ∃ verdict, s.run strategy n = some verdict := by
  induction n generalizing s with
  | zero =>
      have := s.plan.cost_pos
      unfold potential at hn
      omega
  | succ n ih =>
      have hspec := step_spec strategy hs
      unfold run
      cases hstep : s.step strategy with
      | stops verdict => exact ⟨verdict, rfl⟩
      | goesOn s₁ =>
          rw [hstep] at hspec
          obtain ⟨hmoves, hs₁⟩ := hspec
          have hlt : s₁.potential < s.potential := hmoves.potential_lt hall
          exact ih hs₁ (hmoves.all Rule.spares_end hall) (by omega)

theorem start_potential_le (text : List Char) : (start text).potential ≤ stepsPerCharacter * (text.length + 1) := by
  have hcost : Rule.statement.plan.cost ≤ 9 := Rule.cost_le_weight .statement
  simp only [potential, start, Cursor.start, List.map_nil, List.sum_nil, stepsPerCharacter]
  omega

/-- **The verdict is that of a run that ends.** -/
theorem checkBy_spec (text : List Char) :
    ∃ s, Reaches strategy (start text) s ∧ s.step strategy = .stops (checkBy strategy text) := by
  obtain ⟨verdict, hrun⟩ := run_ends strategy (start_coherent text)
    (start_all Rule.spares_end text) (start_potential_le text)
  obtain ⟨s, hreaches, hstops⟩ := exists_reaches hrun
  refine ⟨s, hreaches, ?_⟩
  rw [checkBy, hrun]
  exact hstops

/-- The state in which the run on a text stops, with the verdict on the text. -/
structure StopsIn (text : List Char) (s : State) : Prop where
  reaches : Reaches strategy (start text) s
  stops : s.step strategy = .stops (checkBy strategy text)

/-- A run stops, and in one state only. -/
theorem existsUnique_stopsIn (text : List Char) : ∃! s, StopsIn strategy text s := by
  obtain ⟨s, hreaches, hstops⟩ := checkBy_spec strategy text
  exact ⟨s, ⟨hreaches, hstops⟩, fun _ h => h.reaches.unique h.stops hreaches hstops⟩

/-- Where a run stops, in terms of steps that read the text anew. -/
theorem StopsIn.moves {text : List Char} (h : StopsIn strategy text s) :
    ReflTransGen (Moves strategy.limit) (start text) s.bare ∧
      Stops strategy.limit s.bare (checkBy strategy text) := by
  obtain ⟨hmoves, hs⟩ := h.reaches.moves (start_coherent text)
  have hspec := step_spec strategy hs
  rw [h.stops] at hspec
  exact ⟨hmoves, hspec⟩

/-- The verdict in terms of steps that read the text anew. -/
theorem checkBy_stops (text : List Char) :
    ∃ s, ReflTransGen (Moves strategy.limit) (start text) s ∧
      Stops strategy.limit s (checkBy strategy text) := by
  obtain ⟨s, hstops, -⟩ := existsUnique_stopsIn strategy text
  exact ⟨s.bare, hstops.moves⟩

end Esql.Syntax
