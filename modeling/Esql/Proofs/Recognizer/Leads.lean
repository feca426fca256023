import Esql.Proofs.Grammar.Unfolding
import Esql.Proofs.Recognizer.Fuel

/-!
# `Proofs.Recognizer.Leads` — what a state has left to read

A state stands for the texts that would complete it: its plan, and then the plans that wait on its stack
(`Config.Reads`). The recognizer decides each choice of its plans; here the choices are free again
(`Leads`), so that a move is seen to lose no reading: what the state behind a move reads, the state before it
reads too, in the text of the run or in any other (`Leads.reads`). A run that accepts therefore stands for a
derivation.
-/

namespace Esql.Syntax

open State
open Relation (ReflTransGen)

variable {limit : Nat} {s s' : State} {a b z : Cursor}

/-! ## Configurations -/

/-- What a state is about to do, wherever it stands. -/
structure Config where
  depth : Nat
  plan : Plan
  stack : List Frame

def State.config (s : State) : Config := ⟨s.depth, s.plan, s.stack⟩

/-- The text from `a` to `z` is what the frames wait for. -/
def stackReads (limit : Nat) : Nat → List Frame → Cursor → Cursor → Prop
  | _, [], a, z => z = a
  | depth, .resume plan :: stack, a, z =>
    ∃ b, plan.Reads (limit - depth) a b ∧ stackReads limit depth stack b z
  | depth, .leave :: stack, a, z => stackReads limit (depth - 1) stack a z

/-- The text from `a` to `z` is what is left to read. -/
def Config.Reads (limit : Nat) (c : Config) (a z : Cursor) : Prop :=
  ∃ b, c.plan.Reads (limit - c.depth) a b ∧ stackReads limit c.depth c.stack b z

/-! ## Free moves -/

/-- How a configuration at a place may lead to another, if each choice may go either way. -/
inductive Leads (limit : Nat) : Config → Cursor → Config → Cursor → Prop where
  | resume {d plan stack a} : Leads limit ⟨d, .done, .resume plan :: stack⟩ a ⟨d, plan, stack⟩ a
  | leave {d stack a} : Leads limit ⟨d, .done, .leave :: stack⟩ a ⟨d - 1, .done, stack⟩ a
  | seen {d mode wanted yes no stack a} : Sees mode wanted a →
      Leads limit ⟨d, .look mode wanted yes no, stack⟩ a ⟨d, yes, stack⟩ a
  | unseen {d mode wanted yes no stack a} :
      Leads limit ⟨d, .look mode wanted yes no, stack⟩ a ⟨d, no, stack⟩ a
  | take {d mode wanted yes no stack a b} : Takes mode wanted a b →
      Leads limit ⟨d, .take mode wanted yes no, stack⟩ a ⟨d, yes, stack⟩ b
  | miss {d mode wanted yes no stack a} :
      Leads limit ⟨d, .take mode wanted yes no, stack⟩ a ⟨d, no, stack⟩ a
  | extend {d mode wanted yes no stack a b} : Takes mode wanted a b →
      Leads limit ⟨d, .extend mode wanted yes no, stack⟩ a ⟨d, yes, stack⟩ b
  | pass {d mode wanted yes no stack a} :
      Leads limit ⟨d, .extend mode wanted yes no, stack⟩ a ⟨d, no, stack⟩ a
  | call {d rule next stack a} :
      Leads limit ⟨d, .call rule next, stack⟩ a ⟨d, rule.plan, .resume next :: stack⟩ a
  | jump {d rule stack a} : Leads limit ⟨d, .jump rule, stack⟩ a ⟨d, rule.plan, stack⟩ a
  | opener {d next stack a} : Leads limit ⟨d, .opener next, stack⟩ a ⟨d, next, stack⟩ a
  | enter {d rule next stack a} : d < limit →
      Leads limit ⟨d, .enter rule next, stack⟩ a ⟨d + 1, rule.plan, .leave :: .resume next :: stack⟩ a
  | target {d next stack a b} : Targets a b → Leads limit ⟨d, .target next, stack⟩ a ⟨d, next, stack⟩ b
  | noTarget {d next stack a} : Leads limit ⟨d, .target next, stack⟩ a ⟨d, next, stack⟩ a

/-- **A move loses no reading.** -/
theorem Leads.reads {c c' : Config} (h : Leads limit c a c' b) (hreads : c'.Reads limit b z) :
    c.Reads limit a z := by
  obtain ⟨e, hplan, hstack⟩ := hreads
  cases h with
  | resume => exact ⟨_, rfl, e, hplan, hstack⟩
  | leave =>
      cases hplan
      exact ⟨_, rfl, hstack⟩
  | seen hsees => exact ⟨e, .inl ⟨hsees, hplan⟩, hstack⟩
  | unseen | miss | pass | noTarget => exact ⟨e, .inr hplan, hstack⟩
  | take htakes | extend htakes => exact ⟨e, .inl ⟨_, htakes, hplan⟩, hstack⟩
  | call =>
      obtain ⟨f, hnext, hrest⟩ := hstack
      exact ⟨f, ⟨e, Rule.reads_of_plan _ hplan, hnext⟩, hrest⟩
  | jump => exact ⟨e, Rule.reads_of_plan _ hplan, hstack⟩
  | opener => exact ⟨e, hplan, hstack⟩
  | @enter d _ _ _ _ hdepth =>
      obtain ⟨f, hnext, hrest⟩ := hstack
      have hlevel : limit - d = limit - (d + 1) + 1 := by omega
      exact ⟨f, ⟨limit - (d + 1), e, hlevel, Rule.reads_of_plan _ hplan, hnext⟩, hrest⟩
  | target htarget =>
      obtain ⟨f, hname, hassign⟩ := targets_iff_derives.mp htarget
      exact ⟨e, .inl ⟨f, _, hname, hassign, hplan⟩, hstack⟩

/-- What the recognizer does is one of the free moves. -/
theorem Moves.leads (h : Moves limit s s') : Leads limit s.config s.cursor s'.config s'.cursor := by
  obtain ⟨cursor, ahead, expected, depth, opener, plan, stack⟩ := s
  cases h with
  | resume hplan hstack =>
      cases hplan
      cases hstack
      exact .resume
  | leave hplan hstack =>
      cases hplan
      cases hstack
      exact .leave
  | seen hplan hnext hamong =>
      cases hplan
      exact .seen ⟨_, hnext, hamong⟩
  | unseen hplan =>
      cases hplan
      exact .unseen
  | take hplan hnext hamong =>
      cases hplan
      exact .take ⟨_, hnext, hamong, rfl⟩
  | miss hplan =>
      cases hplan
      exact .miss
  | extend hplan hnext hamong =>
      cases hplan
      exact .extend ⟨_, hnext, hamong, rfl⟩
  | pass hplan =>
      cases hplan
      exact .pass
  | call hplan =>
      cases hplan
      exact .call
  | jump hplan =>
      cases hplan
      exact .jump
  | opener hplan =>
      cases hplan
      exact .opener
  | enter hplan hdepth =>
      cases hplan
      exact .enter hdepth
  | target hplan htarget =>
      cases hplan
      exact .target (target?_eq_some_iff.mp htarget)
  | noTarget hplan =>
      cases hplan
      exact .noTarget

/-! ## Runs that accept -/

/-- What is left to read behind some moves was left to read before them, and more. -/
theorem reads_of_moves (h : ReflTransGen (Moves limit) s s')
    (hreads : s'.config.Reads limit s'.cursor z) : s.config.Reads limit s.cursor z := by
  induction h with
  | refl => exact hreads
  | tail _ hmoves ih => exact ih (hmoves.leads.reads hreads)

/-- What is left to read at first is a statement. -/
theorem start_reads_iff {text : List Char} :
    (start text).config.Reads limit a z ↔ Rule.statement.Reads limit a z := by
  constructor
  · rintro ⟨b, hplan, hstack⟩
    obtain rfl : z = b := hstack
    exact Rule.reads_of_plan _ hplan
  · intro h
    exact ⟨z, Rule.plan_reads .statement (fun hr => by cases hr) h, rfl⟩

/-- A statement is what its rule reads, and the end of the text. -/
theorem derives_statement_iff {n : Nat} :
    (∃ c, Derives n (.part .statement) a c) ↔ ∃ z, Rule.statement.Reads n a z := by
  have hparts : ∀ c, Derives n (.part .statement) a c
      ↔ Derives n (.both Rule.statement.phrase (.mark .endOfText)) a c :=
    fun _ => (derives_part_iff .statement a).trans derives_both_both_iff.symm
  constructor
  · rintro ⟨c, h⟩
    obtain ⟨z, hphrase, hend⟩ := derives_both_iff.mp ((hparts c).mp h)
    exact ⟨z, hphrase, fun _ => (derives_token_iff.mp hend).sees⟩
  · rintro ⟨z, hphrase, hend⟩
    obtain ⟨token, hnext, hamong⟩ := hend rfl
    exact ⟨token.finish, (hparts _).mpr (.both hphrase (derives_token_iff.mpr ⟨token, hnext, hamong, rfl⟩))⟩

/-- **What is accepted is a statement.** -/
theorem derives_of_accept {text : List Char} (h : ReflTransGen (Moves limit) (start text) s)
    (hstops : Stops limit s (.ok ())) : ∃ c, Derives limit (.part .statement) (Cursor.start text) c := by
  cases hstops with
  | accept hplan hstack =>
      have hreads : s.config.Reads limit s.cursor s.cursor := by
        refine ⟨s.cursor, ?_, ?_⟩
        · rw [config, hplan]
          rfl
        · rw [config, hstack]
          rfl
      exact derives_statement_iff.mpr ⟨s.cursor, start_reads_iff.mp (reads_of_moves h hreads)⟩

end Esql.Syntax
