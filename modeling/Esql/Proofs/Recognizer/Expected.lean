import Esql.Proofs.Recognizer.Viable

/-!
# `Proofs.Recognizer.Expected` — what a diagnostic offers would be accepted

A token that does not fit is reported with the terminals that were wanted in its place. Each of them is a way
to go on: a word for it, put where the fault is, continues the text to a statement (`labels_offered`).

A terminal is noted by a choice that would have taken it, or it is listed where a rule gives up. In the first
case the plan behind the choice can be completed; in the second, the plan of the rule would have taken it
(`Rule.offers_refused`). Only what opens a level of nesting is not offered where no level may be entered; but
what can be noted there has to be followed by a token on the same level (`Config.mustTake`), so a fault at
less depth does not list it.

## Contents
- `Plan.offers`: a plan can be completed from a token on.
- `Plan.refuses` and `Plan.speaks`: what is listed where a plan gives up.
- `Config.mustTake`: no level is left before the next token.
- `Expecting`, and `labels_offered`.
-/

namespace Esql.Syntax

open State Look
open Esql.Text (Position)
open Relation (ReflTransGen)

variable {limit : Nat} {s s' : State} {a b z : Cursor} {text v w : List Char}
  {looks : List (Mode × List Terminal)}

/-! ## Completions from a token on -/

/-- The plan takes the token that is looked at, and can be completed behind it. -/
def Plan.offers (rules : Rule → Bool) (deep : Bool) (l : Look) : Plan → Bool
  | done | reject .. | enter .. => false
  | look mode wanted yes no =>
    if (looksFor mode wanted).contains l then yes.offers rules deep l else no.offers rules deep l
  | take mode wanted yes no | extend mode wanted yes no =>
    if (looksFor mode wanted).contains l then yes.completes deep else no.offers rules deep l
  | call rule next => rules rule && next.completes false && !rule.isLast
  | jump rule => rules rule
  | opener next | target next => next.offers rules deep l

/-- The same for rules, found within so many rules of each other. -/
def Rule.offers (deep : Bool) (l : Look) : Nat → Rule → Bool
  | 0, _ => false
  | n + 1, rule => rule.plan.offers (offers deep l n) deep l

/-- The token and some that can be written behind it are read. -/
def CompletesFrom (l : Look) (last : Bool) (reads : Cursor → Cursor → Prop) : Prop :=
  ∃ looks : List Look, looks.all Look.isSampled = true ∧ Completes ([l] ++ looks) last reads

theorem plan_offers {n : Nat} {rules : Rule → Bool} {deep : Bool} {l : Look} (hdeep : deep = true → 0 < n)
    (hrules : ∀ rule : Rule, rules rule = true → CompletesFrom l rule.isLast (rule.Reads n)) {plan : Plan}
    (h : plan.offers rules deep l = true) : CompletesFrom l plan.isLast (plan.Reads n) := by
  induction plan with
  | done | reject | enter => cases h
  | look mode wanted yes no ihyes ihno =>
      simp only [Plan.offers] at h
      split at h
      · rename_i hl
        obtain ⟨looks, hsampled, hreads⟩ := ihyes h
        refine ⟨looks, hsampled, fun a b hwritten hend => .inl ⟨?_, ?_⟩⟩
        · obtain ⟨c, htakes, -⟩ := id hwritten
          exact (htakes.of_mem (List.contains_iff_mem.mp hl)).sees
        · exact hreads a b hwritten fun hlast => hend (by rw [Plan.isLast, hlast, Bool.true_or])
      · obtain ⟨looks, hsampled, hreads⟩ := ihno h
        refine ⟨looks, hsampled, fun a b hwritten hend => .inr (hreads a b hwritten fun hlast => hend ?_)⟩
        rw [Plan.isLast, hlast, Bool.or_true]
  | take mode wanted yes no ihyes ihno | extend mode wanted yes no ihyes ihno =>
      simp only [Plan.offers] at h
      split at h
      · rename_i hl
        obtain ⟨looks, hsampled, hreads⟩ := exists_completion hdeep h
        refine ⟨looks, hsampled, fun a b hwritten hend => ?_⟩
        obtain ⟨c, htakes, hlooks⟩ := hwritten
        refine .inl ⟨c, htakes.of_mem (List.contains_iff_mem.mp hl), hreads c b hlooks fun hlast => hend ?_⟩
        rw [Plan.isLast, hlast, Bool.true_or]
      · obtain ⟨looks, hsampled, hreads⟩ := ihno h
        refine ⟨looks, hsampled, fun a b hwritten hend => .inr (hreads a b hwritten fun hlast => hend ?_)⟩
        rw [Plan.isLast, hlast, Bool.or_true]
  | call rule next ih =>
      simp only [Plan.offers, Bool.and_eq_true, Bool.not_eq_true'] at h
      obtain ⟨⟨hrule, hnext⟩, hlast⟩ := h
      obtain ⟨looks, hsampled, hreads⟩ := hrules rule hrule
      obtain ⟨others, hsampled', hrest⟩ :=
        @exists_completion n false (fun h => absurd h Bool.false_ne_true) next hnext
      refine ⟨looks ++ others, by rw [List.all_append, hsampled, hsampled']; rfl, fun a b hwritten hend => ?_⟩
      rw [← List.append_assoc] at hwritten
      obtain ⟨c, hlooks, hothers⟩ := written_append.mp hwritten
      refine ⟨c, hreads a c hlooks ?_, hrest c b hothers hend⟩
      rw [hlast]
      exact fun h => absurd h Bool.false_ne_true
  | jump rule => exact hrules rule h
  | opener next ih => exact ih h
  | target next ih =>
      obtain ⟨looks, hsampled, hreads⟩ := ih h
      exact ⟨looks, hsampled, fun a b hwritten hend => .inr (hreads a b hwritten hend)⟩

theorem rule_offers {k n : Nat} {deep : Bool} {l : Look} (hdeep : deep = true → 0 < n) {rule : Rule}
    (h : rule.offers deep l k = true) : CompletesFrom l rule.isLast (rule.Reads n) := by
  induction k generalizing rule with
  | zero => cases h
  | succ k ih =>
      obtain ⟨looks, hsampled, hreads⟩ := plan_offers hdeep (fun _ => ih) h
      refine ⟨looks, hsampled, fun a b hwritten hend => rule.reads_of_plan (hreads a b hwritten fun hlast => ?_)⟩
      exact hend (rule.isLast_plan hlast)

/-! ## Where a plan gives up -/

namespace Plan

/-- What is listed where the plan refuses the next token. -/
def refuses : Plan → List Look
  | reject mode wanted => looksFor mode wanted
  | look _ _ yes no => yes.refuses ++ no.refuses
  | take _ _ _ no | extend _ _ _ no => no.refuses
  | opener next | target next => next.refuses
  | done | call .. | jump _ | enter .. => []

/-- Where the plan refuses the next token, something is listed or has been noted before. -/
def speaks : Plan → Bool
  | reject _ wanted => !wanted.isEmpty
  | look _ _ yes no => yes.speaks && no.speaks
  | take _ wanted _ no => !wanted.isEmpty || no.speaks
  | extend _ _ _ no => no.speaks
  | opener next | target next => next.speaks
  | done | call .. | jump _ | enter .. => true

/-- What goes on behind a token, or waits for a phrase, lists nothing of its own where it refuses a token. -/
def waits (plan : Plan) : Bool := plan.refuses.isEmpty && plan.speaks

/-- Whatever is noted can be written and is followed by something that can be completed; what opens a level of
nesting is only noted where a token has to follow on the same level. -/
def notes : Plan → Bool
  | take mode wanted yes no =>
    (looksFor mode wanted).all Look.isSampled && (yes.completes false || (yes.completes true && !no.mayEnd)) &&
      yes.waits
  | extend _ _ yes _ => yes.waits
  | call _ next | target next => next.waits
  | enter rule next => next.waits && !rule.mayEnd
  | _ => true

end Plan

theorem Rule.notes (rule : Rule) : rule.plan.all Plan.notes = true := by
  cases rule <;> decide +kernel

theorem Rule.speaks (rule : Rule) : rule.plan.speaks = true := by
  cases rule <;> decide

/-- Everything that is listed where a rule refuses a token would have been taken by the rule, or is the end of
the text and the rule is that of the commands that follow. -/
def Rule.offersRefused (rule : Rule) : Bool :=
  rule.plan.refuses.all fun l =>
    (rule.plan.asks false).contains l &&
      if rule = .pipeline then l = (.expression, .kind .endOfText)
      else
        l.isSampled && (rule.offers false l 16 || (rule.offers true l 16 && !rule.plan.mayEnd))

theorem Rule.offers_refused (rule : Rule) : rule.offersRefused = true := by
  cases rule <;> decide +kernel

/-! ## Levels that are not left -/

/-- A token has to be taken before the frames come to the end of a level. -/
def stackMustTake : List Frame → Bool
  | .resume plan :: stack => !plan.mayEnd || stackMustTake stack
  | _ => false

/-- A token has to be taken before the level of nesting is left. -/
def Config.mustTake (c : Config) : Bool := !c.plan.mayEnd || stackMustTake c.stack

theorem mustTake_next (h : s.config.mustTake = true) (hstack : s'.stack = s.stack)
    (hend : s'.plan.mayEnd = true → s.plan.mayEnd = true) : s'.config.mustTake = true := by
  simp only [config, Config.mustTake, hstack, Bool.or_eq_true, Bool.not_eq_true'] at h ⊢
  refine h.imp_left fun hplan => Bool.eq_false_iff.mpr fun hnext => ?_
  rw [hend hnext] at hplan
  cases hplan

theorem mustTake_call {rule : Rule} {next : Plan} (hplan : s.plan = .call rule next)
    (h : s.config.mustTake = true) : Config.mustTake ⟨s.depth, rule.plan, .resume next :: s.stack⟩ = true := by
  simp only [config, Config.mustTake, stackMustTake, hplan, Plan.mayEnd] at h ⊢
  cases hend : rule.plan.mayEnd with
  | false => rfl
  | true =>
      rw [rule.mayEnd_plan hend] at h
      simpa using h

/-- A move takes a token, or it leaves no level that has to be stayed on. -/
theorem Moves.takes_or_stays (h : Moves limit s s') (hall : s.All Plan.notes) :
    (s'.expected = [] ∧ s'.plan.waits = true) ∨
      (s'.cursor = s.cursor ∧
        (s.config.mustTake = true → s.depth ≤ s'.depth ∧ s'.config.mustTake = true)) := by
  have hnotes := Plan.all_self hall.plan
  cases h with
  | take hplan =>
      rw [hplan] at hnotes
      simp only [Plan.notes, Bool.and_eq_true] at hnotes
      exact .inl ⟨rfl, hnotes.2⟩
  | extend hplan | target hplan =>
      rw [hplan] at hnotes
      exact .inl ⟨rfl, hnotes⟩
  | resume hplan hstack =>
      refine .inr ⟨rfl, fun h => ⟨Nat.le_refl _, ?_⟩⟩
      simpa [config, Config.mustTake, hplan, hstack, stackMustTake, Plan.mayEnd] using h
  | leave hplan hstack =>
      refine .inr ⟨rfl, fun h => ?_⟩
      simp [config, Config.mustTake, hplan, hstack, stackMustTake, Plan.mayEnd] at h
  | seen hplan | unseen hplan =>
      refine .inr ⟨rfl, fun h => ⟨Nat.le_refl _, mustTake_next h rfl fun hend => ?_⟩⟩
      simp [hplan, Plan.mayEnd, show Plan.mayEnd _ = true from hend]
  | miss hplan | pass hplan | opener hplan | noTarget hplan =>
      refine .inr ⟨rfl, fun h => ⟨Nat.le_refl _, mustTake_next h rfl fun hend => ?_⟩⟩
      rw [hplan]
      exact hend
  | @jump rule hplan =>
      refine .inr ⟨rfl, fun h => ⟨Nat.le_refl _, mustTake_next h rfl fun hend => ?_⟩⟩
      rw [hplan]
      exact rule.mayEnd_plan hend
  | call hplan => exact .inr ⟨rfl, fun h => ⟨Nat.le_refl _, mustTake_call hplan h⟩⟩
  | @enter rule next hplan hdepth =>
      rw [hplan] at hnotes
      simp only [Plan.notes, Bool.and_eq_true, Bool.not_eq_true'] at hnotes
      have hend : rule.plan.mayEnd = false := by
        refine Bool.eq_false_iff.mpr fun hend => ?_
        rw [rule.mayEnd_plan hend] at hnotes
        cases hnotes.2
      exact .inr ⟨rfl, fun _ => ⟨Nat.le_succ _, by simp [config, Config.mustTake, hend]⟩⟩

/-! ## What is offered -/

/-- The text up to a place goes on with a word for the token that is looked for; or it is a statement, where
that is the end of the text. -/
def Offered (limit : Nat) (text : List Char) (place : Position) (l : Look) : Prop :=
  if l.2 = .kind .endOfText then Resumes limit text place []
  else l.isSampled = true ∧ ∃ x, Resumes limit text place ('\n' :: (l.2.sample ++ ' ' :: x))

theorem isSampled_ne_end {l : Look} (h : l.isSampled = true) : l.2 ≠ .kind .endOfText := by
  intro hend
  obtain ⟨c, u, kind, hsample, -⟩ := sample_form h
  rw [hend] at hsample
  cases hsample

/-- What a state asks for, and can read and complete, is offered there. -/
theorem Traced.offers (h : Traced limit text looks s) (hin : s.cursor.IsIn text) {l : Look}
    (hsampled : l.isSampled = true) (hasks : l ∈ s.config.asks false)
    (hcompletable : Completable [l] (s.config.Reads limit)) : Offered limit text s.cursor.beyond l := by
  unfold Offered
  rw [if_neg (isSampled_ne_end hsampled)]
  obtain ⟨others, hothers, hreads⟩ := hcompletable
  refine ⟨hsampled, spell others, h.resumes hin (.inr rfl) fun a hnext => ?_⟩
  have hall : (l :: others).all Look.isSampled = true := by rw [List.all_cons, hsampled, hothers]; rfl
  have hspell : l.2.sample ++ ' ' :: spell others = spell (l :: others) := by
    simp [spell]
  rw [hspell] at hnext
  obtain ⟨z, hwritten, hend⟩ := written_congr hnext (written_spell hall (by decide) _)
  refine ⟨fun p hp => ?_, z, hreads a z hwritten hend⟩
  obtain ⟨c, htakes, -⟩ := hwritten
  exact (htakes.of_mem (h.noted p hp l hasks)).sees

/-- The end of the text is offered where the commands of a statement may end. -/
theorem Traced.offers_end (h : Traced limit text looks s) (hin : s.cursor.IsIn text) (hopen : s.Open)
    (hplan : s.plan = Rule.pipeline.plan) :
    Offered limit text s.cursor.beyond (.expression, .kind .endOfText) := by
  unfold Offered
  rw [if_pos rfl]
  refine h.resumes hin (.inl rfl) fun a hnext => ?_
  have hend : Sees .expression [.kind .endOfText] a := by
    refine ⟨Token.endOfText s.cursor.beyond, ?_, rfl⟩
    rw [hnext]
    rfl
  refine ⟨fun p hp => ?_, a, a, ?_, ?_⟩
  · have hasks : (Mode.expression, Terminal.kind .endOfText) ∈ s.config.asks false := by
      refine mem_asksBefore.mpr (.inl ?_)
      rw [config, hplan]
      show _ ∈ Rule.pipeline.plan.asks false
      decide
    exact sees_iff.mpr ⟨_, h.noted p hp _ hasks, hend⟩
  · rw [config, hplan]
    exact .inr (.inl ⟨hend, rfl⟩)
  · have hstack : s.stack = [] := hopen.last (by rw [hplan]; rfl)
    rw [config, hstack]
    rfl

/-- What a plan offers behind a token, its frames go on with. -/
theorem completable_from {l : Look} (hopen : s.Open)
    (hplan : CompletesFrom l s.plan.isLast (s.plan.Reads (limit - s.depth))) :
    Completable [l] (s.config.Reads limit) :=
  completable_then hplan hopen.last (stack_completable hopen.stack s.depth)

/-- At the start of a rule, what the rule lists where it refuses a token is offered; unless it opens a level
that may not be entered. -/
theorem rule_offered (h : Traced limit text looks s) (hin : s.cursor.IsIn text) (hopen : s.Open) {rule : Rule}
    (hplan : s.plan = rule.plan) (hlevel : ¬ (limit ≤ s.depth ∧ s.config.mustTake = true)) :
    ∀ l ∈ s.plan.refuses, Offered limit text s.cursor.beyond l := by
  intro l hl
  rw [hplan] at hl
  have hoffers := List.all_eq_true.mp rule.offers_refused l hl
  simp only [Bool.and_eq_true] at hoffers
  obtain ⟨hasks, hoffers⟩ := hoffers
  by_cases hpipeline : rule = .pipeline
  · subst hpipeline
    obtain rfl : l = (.expression, .kind .endOfText) := by simpa using hoffers
    exact h.offers_end hin hopen hplan
  · simp only [if_neg hpipeline, Bool.and_eq_true, Bool.or_eq_true, Bool.not_eq_true'] at hoffers
    obtain ⟨hsampled, hoffers⟩ := hoffers
    have hasks' : l ∈ s.config.asks false := by
      refine mem_asksBefore.mpr (.inl ?_)
      rw [config, hplan]
      exact List.contains_iff_mem.mp hasks
    refine h.offers hin hsampled hasks' (completable_from hopen ?_)
    rw [hplan]
    rcases hoffers with hshallow | ⟨hdeep, hmust⟩
    · exact plan_offers (fun h => absurd h Bool.false_ne_true) (fun _ => rule_offers (by simp)) hshallow
    · have hdepth : s.depth < limit := by
        refine Nat.lt_of_not_le fun hle => hlevel ⟨hle, ?_⟩
        simp [config, Config.mustTake, hplan, hmust]
      have hpos : true = true → 0 < limit - s.depth := fun _ => Nat.sub_pos_of_lt hdepth
      exact plan_offers hpos (fun _ => rule_offers hpos) hdeep

/-- Where a token is not the one that is wanted, what is noted is offered; unless it opens a level that may
not be entered. -/
theorem miss_offered (h : Traced limit text looks s) (hin : s.cursor.IsIn text) (hopen : s.Open)
    (hall : s.All Plan.notes) {mode : Mode} {wanted : List Terminal} {yes no : Plan}
    (hplan : s.plan = .take mode wanted yes no) (hlevel : ¬ (limit ≤ s.depth ∧ no.mayEnd = false)) :
    ∀ t ∈ wanted, Offered limit text s.cursor.beyond (mode, t) := by
  intro t ht
  have hl : (mode, t) ∈ looksFor mode wanted := List.mem_map.mpr ⟨t, ht, rfl⟩
  have hnotes := Plan.all_self hall.plan
  rw [hplan] at hnotes
  simp only [Plan.notes, Bool.and_eq_true, Bool.or_eq_true, Bool.not_eq_true'] at hnotes
  obtain ⟨⟨hsampled, hcompletes⟩, -⟩ := hnotes
  have hasks : (mode, t) ∈ s.config.asks false := by
    refine mem_asksBefore.mpr (.inl ?_)
    rw [config, hplan]
    exact List.mem_append_left _ hl
  refine h.offers hin (List.all_eq_true.mp hsampled _ hl) hasks (completable_from hopen ?_)
  obtain ⟨deep, hdeep, hyes⟩ : ∃ deep, (deep = true → 0 < limit - s.depth) ∧ yes.completes deep = true := by
    rcases hcompletes with hshallow | ⟨hdeep, hmust⟩
    · exact ⟨false, fun h => absurd h Bool.false_ne_true, hshallow⟩
    · exact ⟨true, fun _ => Nat.sub_pos_of_lt (Nat.lt_of_not_le fun hle => hlevel ⟨hle, hmust⟩), hdeep⟩
  rw [hplan]
  refine @plan_offers _ (fun _ => false) deep _ hdeep (fun _ h => absurd h Bool.false_ne_true) _ ?_
  rw [Plan.offers, if_pos (List.contains_iff_mem.mpr hl)]
  exact hyes

/-! ## Runs -/

/-- What a state has noted, and what it would list where it refuses the next token, is offered; unless no
level may be entered, and none can be left before a token is taken. -/
structure Expecting (limit : Nat) (text : List Char) (s : State) : Prop where
  frames : ∀ plan, Frame.resume plan ∈ s.stack → plan.waits = true
  speaks : s.expected ≠ [] ∨ s.plan.speaks = true
  offered : (limit ≤ s.depth ∧ s.config.mustTake = true) ∨
    ((∀ t ∈ s.expected, ∃ mode, Offered limit text s.cursor.beyond (mode, t)) ∧
      ∀ l ∈ s.plan.refuses, Offered limit text s.cursor.beyond l)

theorem start_expecting (limit : Nat) (text : List Char) : Expecting limit text (start text) :=
  ⟨fun _ h => absurd h List.not_mem_nil, .inr (Rule.speaks .statement),
    .inr ⟨fun _ h => absurd h List.not_mem_nil, fun _ h => absurd h List.not_mem_nil⟩⟩

theorem refuses_of_waits {plan : Plan} (h : plan.waits = true) : plan.refuses = [] := by
  simp only [Plan.waits, Bool.and_eq_true, List.isEmpty_iff] at h
  exact h.1

theorem speaks_of_waits {plan : Plan} (h : plan.waits = true) : plan.speaks = true := by
  simp only [Plan.waits, Bool.and_eq_true] at h
  exact h.2

theorem Moves.frames (h : Moves limit s s') (hall : s.All Plan.notes)
    (hframes : ∀ plan, Frame.resume plan ∈ s.stack → plan.waits = true) :
    ∀ plan, Frame.resume plan ∈ s'.stack → plan.waits = true := by
  have hnotes := Plan.all_self hall.plan
  cases h with
  | resume _ hstack | leave _ hstack =>
      rw [hstack] at hframes
      exact fun p hp => hframes p (.tail _ hp)
  | call hplan | enter hplan _ =>
      rw [hplan] at hnotes
      simp only [Plan.notes, Bool.and_eq_true] at hnotes
      intro p hp
      simp only [List.mem_cons, Frame.resume.injEq, reduceCtorEq, false_or] at hp
      rcases hp with rfl | hp
      · simp [hnotes]
      · exact hframes p hp
  | _ => exact hframes

/-- A move notes what is wanted, or it comes to a plan that speaks where the one before it does. -/
theorem Moves.speaks (h : Moves limit s s') (hall : s.All Plan.notes)
    (hframes : ∀ plan, Frame.resume plan ∈ s.stack → plan.waits = true)
    (hs : s.expected ≠ [] ∨ s.plan.speaks = true) : s'.expected ≠ [] ∨ s'.plan.speaks = true := by
  have hnotes := Plan.all_self hall.plan
  cases h with
  | resume _ hstack =>
      rw [hstack] at hframes
      exact .inr (speaks_of_waits (hframes _ (.head _)))
  | leave => exact .inr rfl
  | seen hplan | unseen hplan =>
      rw [hplan] at hs
      simp only [Plan.speaks, Bool.and_eq_true] at hs
      exact hs.imp_right (by tauto)
  | take hplan =>
      rw [hplan] at hnotes
      simp only [Plan.notes, Bool.and_eq_true] at hnotes
      exact .inr (speaks_of_waits hnotes.2)
  | extend hplan | target hplan =>
      rw [hplan] at hnotes
      exact .inr (speaks_of_waits hnotes)
  | @miss _ wanted _ _ _ hplan =>
      rw [hplan] at hs
      simp only [Plan.speaks, Bool.or_eq_true, Bool.not_eq_true', List.isEmpty_eq_false_iff] at hs
      rcases hs with hexpected | hwanted | hspeaks
      · exact .inl (List.append_ne_nil_of_left_ne_nil hexpected _)
      · exact .inl (List.append_ne_nil_of_right_ne_nil _ hwanted)
      · exact .inr hspeaks
  | pass hplan | opener hplan | noTarget hplan =>
      rw [hplan] at hs
      exact hs
  | call | jump | enter => exact .inr (Rule.speaks _)

/-- **What is expected is offered, in every state of a run.** -/
theorem Moves.expecting (h : Moves limit s s') (hall : s.All Plan.notes) (hopen : s.Open) (hopen' : s'.Open)
    (htraced : ∃ looks, Traced limit text looks s) (htraced' : ∃ looks, Traced limit text looks s')
    (hin : s.cursor.IsIn text) (hs : Expecting limit text s) : Expecting limit text s' := by
  obtain ⟨hframes, hspeaks, hoffered⟩ := hs
  obtain ⟨looks, htraced⟩ := htraced
  obtain ⟨looks', htraced'⟩ := htraced'
  refine ⟨h.frames hall hframes, h.speaks hall hframes hspeaks, ?_⟩
  by_cases hlevel : limit ≤ s'.depth ∧ s'.config.mustTake = true
  · exact .inl hlevel
  refine .inr ?_
  rcases h.takes_or_stays hall with ⟨hnone, hwaits⟩ | ⟨hcursor, hstays⟩
  · rw [hnone, refuses_of_waits hwaits]
    exact ⟨fun _ h => absurd h List.not_mem_nil, fun _ h => absurd h List.not_mem_nil⟩
  -- Nothing is taken, so what was offered is offered still.
  have hbefore := hoffered.resolve_left fun ⟨hdepth, hmust⟩ =>
    hlevel ⟨Nat.le_trans hdepth (hstays hmust).1, (hstays hmust).2⟩
  rw [hcursor]
  obtain ⟨hexpected, hrefuses⟩ := hbefore
  have hrule : ∀ rule : Rule, s'.plan = rule.plan → ∀ l ∈ s'.plan.refuses, Offered limit text s.cursor.beyond l := by
    intro rule hplan
    rw [← hcursor] at hin ⊢
    exact rule_offered htraced' hin hopen' hplan hlevel
  cases h with
  | resume _ hstack =>
      rw [hstack] at hframes
      refine ⟨hexpected, ?_⟩
      rw [refuses_of_waits (hframes _ (.head _))]
      exact fun _ h => absurd h List.not_mem_nil
  | leave => exact ⟨hexpected, fun _ h => absurd h List.not_mem_nil⟩
  | seen hplan =>
      rw [hplan] at hrefuses
      exact ⟨hexpected, fun l hl => hrefuses l (List.mem_append_left _ hl)⟩
  | unseen hplan =>
      rw [hplan] at hrefuses
      exact ⟨hexpected, fun l hl => hrefuses l (List.mem_append_right _ hl)⟩
  | @miss mode wanted yes no _ hplan =>
      rw [hplan] at hrefuses
      refine ⟨fun t ht => ?_, hrefuses⟩
      rcases List.mem_append.mp ht with ht | ht
      · exact hexpected t ht
      · refine ⟨mode, miss_offered htraced hin hopen hall hplan (fun ⟨hdepth, hend⟩ => hlevel ⟨hdepth, ?_⟩) t ht⟩
        simp [config, Config.mustTake, hend]
  | pass hplan | opener hplan | noTarget hplan =>
      rw [hplan] at hrefuses
      exact ⟨hexpected, hrefuses⟩
  | call | jump | enter => exact ⟨hexpected, hrule _ rfl⟩
  | take hplan | extend hplan | target hplan =>
      have hnotes := Plan.all_self hall.plan
      simp only [hplan, Plan.notes, Bool.and_eq_true] at hnotes
      refine ⟨fun _ h => absurd h List.not_mem_nil, ?_⟩
      rw [refuses_of_waits (by tauto)]
      exact fun _ h => absurd h List.not_mem_nil

theorem runs_expecting (h : ReflTransGen (Moves limit) (start text) s) : Expecting limit text s := by
  induction h with
  | refl => exact start_expecting limit text
  | tail hruns hmoves ih =>
      have hviable := runs_viable hruns
      have hruns' := hruns.tail hmoves
      exact hmoves.expecting (runs_all Rule.notes hruns) (runs_open hruns) (runs_open hruns') hviable.traced
        (runs_viable hruns').traced hviable.isIn ih

/-- Where a run stops at a token that does not fit, something is expected. -/
theorem Stops.expects {place : Position} {found : String} {expected : List Terminal}
    (h : Stops limit s (.error ⟨place, .mismatched found expected⟩))
    (hs : Expecting limit text s) : expected ≠ [] := by
  cases h with
  | mismatch hplan hnext =>
      have hspeaks := hs.speaks
      simp only [hplan, Plan.speaks, Bool.not_eq_true', List.isEmpty_eq_false_iff] at hspeaks
      rcases hspeaks with hexpected | hwanted
      · exact List.append_ne_nil_of_left_ne_nil hexpected _
      · exact List.append_ne_nil_of_right_ne_nil _ hwanted
  | unrecognised hmode hnext =>
      obtain ⟨gap, refused, rest, -, -, he⟩ := next_refused hnext
      cases he

/-- Where a run stops at a token that does not fit, all that is expected is offered, if another level may be
entered. -/
theorem Stops.offered {place : Position} {found : String} {expected : List Terminal}
    (h : Stops limit s (.error ⟨place, .mismatched found expected⟩)) (hs : Expecting limit text s)
    (hdepth : s.depth < limit) : ∀ t ∈ expected, ∃ mode, Offered limit text place (mode, t) := by
  cases h with
  | @mismatch mode _ _ hplan hnext =>
      obtain ⟨hexpected, hrefuses⟩ := hs.offered.resolve_left fun ⟨hle, _⟩ => Nat.not_lt.mpr hle hdepth
      obtain ⟨gap, hgap⟩ := next_ok hnext
      rw [hgap.beyond]
      intro t ht
      rcases List.mem_append.mp ht with ht | ht
      · exact hexpected t ht
      · refine ⟨mode, hrefuses (mode, t) ?_⟩
        rw [hplan]
        exact List.mem_map.mpr ⟨t, ht, rfl⟩
  | unrecognised hmode hnext =>
      obtain ⟨gap, refused, rest, -, -, he⟩ := next_refused hnext
      cases he

/-! ## Labels -/

theorem nodup_eraseDups {α : Type} [BEq α] [LawfulBEq α] (xs : List α) : xs.eraseDups.Nodup := by
  induction hlength : xs.length using Nat.strongRecOn generalizing xs with
  | ind k ih =>
      cases xs with
      | nil => exact .nil
      | cons x xs =>
          rw [List.eraseDups_cons, List.nodup_cons, List.mem_eraseDups]
          have hle := List.length_filter_le (fun b => !b == x) xs
          exact ⟨by simp, ih _ (by simp only [List.length_cons] at hlength; omega) _ rfl⟩

theorem mem_labels {label : String} {expected : List Terminal} :
    label ∈ labels expected ↔ ∃ t ∈ expected, t.label = label := by
  rw [labels, List.mem_eraseDups, List.mem_map]

theorem label_eq_end {t : Terminal} (h : t.label = Kind.endOfText.label) : t = .kind .endOfText := by
  cases t with
  | kind k =>
      cases k with
      | endOfText => rfl
      | _ => exact absurd h (by decide)
  | word w => cases w <;> exact absurd h (by decide)
  | name => exact absurd h (by decide)

/-- A text that is one token, and a terminal with this label stands for it. -/
def IsLabelled (label word : String) : Prop :=
  ∃ mode terminal token, Terminal.label terminal = label ∧
    (Cursor.start word.toList).next mode = .ok token ∧ token.text = word.toList ∧
      terminal.accepts token.toSymbol = true

theorem sample_labelled {l : Look} (h : l.isSampled = true) :
    IsLabelled l.2.label (String.ofList l.2.sample) := by
  obtain ⟨token, hnext, htext, haccepts⟩ := sample_alone h
  refine ⟨l.1, l.2, token, rfl, ?_, ?_, haccepts⟩
  · rw [String.toList_ofList]
    exact hnext
  · rw [String.toList_ofList]
    exact htext

/-- A text that goes on as a statement is accepted. -/
theorem Resumes.check {t p : String} {place : Position} (h : Resumes 100 t.toList place w)
    (hp : UpTo t place p) : check (p ++ String.ofList w) = .ok () := by
  obtain ⟨q, v, htext, hplace, z, hreads⟩ := h
  obtain rfl : p = String.ofList q := (upTo_of_append htext hplace).unique hp
  exact checkBy_of_reads (z := z) (by simpa using hreads)

/-- What is offered is accepted: some word with the label and some text behind it, or the end of the text. -/
theorem Offered.check {t p : String} {place : Position} {l : Look} (h : Offered 100 t.toList place l)
    (hp : UpTo t place p) :
    (l.2.label = "<EOF>" → check p = .ok ()) ∧
      (l.2.label ≠ "<EOF>" → ∃ word s, IsLabelled l.2.label word ∧
        check (p ++ "\n" ++ word ++ " " ++ s) = .ok ()) := by
  unfold Offered at h
  by_cases hend : l.2 = .kind .endOfText
  · rw [if_pos hend] at h
    refine ⟨fun _ => by simpa using h.check hp, fun hlabel => absurd ?_ hlabel⟩
    rw [hend]
    rfl
  · rw [if_neg hend] at h
    obtain ⟨hsampled, x, hresumes⟩ := h
    refine ⟨fun hlabel => absurd (label_eq_end hlabel) hend, fun _ => ?_⟩
    refine ⟨String.ofList l.2.sample, String.ofList x, sample_labelled hsampled, ?_⟩
    have hcheck := hresumes.check hp
    rw [← hcheck]
    congr 1
    refine String.toList_inj.mp ?_
    simp

/-- **What is expected would be accepted.** A diagnostic that a token does not fit names something that was
expected, and nothing twice. If another level of nesting could be entered where it was found, each name is that
of a word with which the text in front of the fault goes on to a statement, or is the end of the text where
that text is a statement. -/
theorem labels_offered {t : String} {place : Position} {found : String} {expected : List Terminal}
    (h : check t = .error ⟨place, .mismatched found expected⟩) :
    labels expected ≠ [] ∧ (labels expected).Nodup ∧
      ∃ s, StopsIn {} t.toList s ∧ (∀ s', StopsIn {} t.toList s' → s' = s) ∧
        (s.depth < 100 → ∃ p, UpTo t place p ∧ (∀ q, UpTo t place q → q = p) ∧
          ∀ label ∈ labels expected,
            (label = "<EOF>" → check p = .ok ()) ∧
            (label ≠ "<EOF>" → ∃ word s, IsLabelled label word ∧
              check (p ++ "\n" ++ word ++ " " ++ s) = .ok ())) := by
  obtain ⟨s, hs, hunique⟩ := existsUnique_stopsIn {} t.toList
  obtain ⟨hruns, hstops⟩ := hs.moves
  rw [show checkBy {} t.toList = .error _ from h] at hstops
  have hexpecting := runs_expecting hruns
  refine ⟨?_, nodup_eraseDups _, s, hs, hunique, fun hdepth => ?_⟩
  · obtain ⟨u, hu⟩ := List.exists_mem_of_ne_nil _ (hstops.expects hexpecting)
    exact List.ne_nil_of_mem (mem_labels.mpr ⟨u, hu, rfl⟩)
  · obtain ⟨x, p, v, htext, hplace, -⟩ := hstops.canResume (runs_viable hruns)
    have hp : UpTo t place (String.ofList p) := upTo_of_append htext hplace
    refine ⟨String.ofList p, hp, fun q hq => hp.unique hq, fun label hlabel => ?_⟩
    obtain ⟨u, hu, rfl⟩ := mem_labels.mp hlabel
    obtain ⟨mode, hoffered⟩ := hstops.offered hexpecting hdepth u hu
    exact hoffered.check hp

theorem labels_offered_behind_show :
    check "show info x" = .error ⟨⟨1, 10⟩, .mismatched "x" [.kind .pipe, .kind .endOfText]⟩ ∧
      labels [.kind .pipe, .kind .endOfText] ≠ [] ∧ (labels [.kind .pipe, .kind .endOfText]).Nodup ∧
      ∃ s, StopsIn {} "show info x".toList s ∧ (∀ s', StopsIn {} "show info x".toList s' → s' = s) ∧
        (s.depth < 100 → ∃ p, UpTo "show info x" ⟨1, 10⟩ p ∧ (∀ q, UpTo "show info x" ⟨1, 10⟩ q → q = p) ∧
          ∀ label ∈ labels [.kind .pipe, .kind .endOfText],
            (label = "<EOF>" → check p = .ok ()) ∧
            (label ≠ "<EOF>" → ∃ word s, IsLabelled label word ∧
              check (p ++ "\n" ++ word ++ " " ++ s) = .ok ())) := by
  have h : check "show info x" = .error ⟨⟨1, 10⟩, .mismatched "x" [.kind .pipe, .kind .endOfText]⟩ := by rfl
  exact ⟨h, labels_offered h⟩

end Esql.Syntax
