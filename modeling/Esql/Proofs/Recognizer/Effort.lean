import Esql.Proofs.Recognizer.Frames
import Esql.Proofs.Recognizer.Scanned
import Esql.Proofs.Tokens.Pieces

/-!
# `Proofs.Recognizer.Effort` — what a run spends on a text

A run takes tokens, and it reads tokens on trial, where it looks for an assignment target and may go back. Both are kept
account of, step by step (`Spends`).

The tokens that are taken are those of the text, one behind the other, and a run that comes back to a plan on a stack
no smaller has taken one in the meantime: each step lowers the potential, and without a token nothing raises it again.
So no rule calls itself, no list goes round and no pipe follows another without a token.

The tokens that are read on trial do not add up either. If no target stands at a place, the condition that is read there
passes all the names that were tried before it comes to another field (`Overtakes`); so no token is tried twice, and all
trials together read no more tokens than the text has characters (`effort_bounded`).

## Contents
- `Cursor.search`: the scan for a target, with what it reads.
- `State.taken`, `State.tried`: what a step takes, and what it tries.
- `Overtakes`, and `Plan.takesFirst`: trials are apart.
- `Spends`, and `effort_bounded`.
-/

namespace Esql.Syntax

open State
open Relation (ReflTransGen)

variable {strategy : Strategy} {limit n : Nat} {mode : Mode} {modes : List Mode} {wanted : List Terminal}
  {s y z : State} {a b c : Cursor} {named : Bool} {tokens used trials : List Token} {text : List Char}

/-! ## Tokens that are cut off -/

theorem kind_ne_endOfText {token : Token} (h : a.next mode = .ok token) (hamong : token.isAmong wanted = true)
    (hend : wanted.contains (.kind .endOfText) = false) : token.kind ≠ .endOfText :=
  fun hkind => text_ne_nil h hamong hend ((kind_eq_endOfText_iff h).mp hkind)

theorem Cuts.spares_end (h : Cuts a modes tokens b) : ∀ token ∈ tokens, token.kind ≠ .endOfText := by
  induction h with
  | nothing => exact fun _ hmem => absurd hmem List.not_mem_nil
  | token _ hkind _ ih => exact List.forall_mem_cons.mpr ⟨hkind, ih⟩

theorem Cuts.eq_of_nil (h : Cuts a modes [] b) : b = a := by
  cases h
  rfl

theorem Cuts.follows (h : Cuts a modes tokens b) : a.Follows b := by
  induction h with
  | nothing => exact Cursor.follows_refl _
  | token hnext _ _ ih => exact (follows_token hnext).2.trans ih

theorem Cuts.finish_follows (h : Cuts a modes tokens b) : ∀ token ∈ tokens, token.finish.Follows b := by
  induction h with
  | nothing => exact fun _ hmem => absurd hmem List.not_mem_nil
  | token _ _ hrest ih => exact List.forall_mem_cons.mpr ⟨hrest.follows, ih⟩

theorem Cursor.Follows.length_le (h : a.Follows b) : b.rest.length ≤ a.rest.length := by
  obtain ⟨q, hrest, -⟩ := h
  rw [hrest, List.length_append]
  omega

/-! ## Trials -/

/-- The scan for an assignment target that stands here, with the tokens that it reads on the way. -/
def Cursor.search : List Char → Cursor → List Token × Option Cursor
  | [], _ => ([], none)
  | _ :: ahead, here =>
    match here.next .expression with
    | .error _ => ([], none)
    | .ok part =>
      if part.isAmong [.name, .kind .quotedIdentifier] then
        match part.finish.next .expression with
        | .error _ => ([part], none)
        | .ok token =>
          if token.kind = .dot then
            (part :: token :: (search ahead token.finish).1, (search ahead token.finish).2)
          else if token.kind = .assign then ([part, token], some token.finish)
          else ([part], none)
      else ([], none)

theorem search_found (chars : List Char) (here : Cursor) : (here.search chars).2 = here.target? chars := by
  induction chars generalizing here with
  | nil => rfl
  | cons c chars ih =>
      unfold Cursor.search Cursor.target?
      cases here.next .expression with
      | error e => rfl
      | ok part =>
          dsimp only
          by_cases hname : part.isAmong [.name, .kind .quotedIdentifier] = true
          · rw [if_pos hname, if_pos hname]
            cases part.finish.next .expression with
            | error e => rfl
            | ok token =>
                dsimp only
                by_cases hdot : token.kind = .dot
                · rw [if_pos hdot, if_pos hdot]
                  exact ih token.finish
                · rw [if_neg hdot, if_neg hdot]
                  by_cases hassign : token.kind = .assign
                  · rw [if_pos hassign, if_pos hassign]
                  · rw [if_neg hassign, if_neg hassign]
          · rw [if_neg hname, if_neg hname]

/-- A scan may use more characters than follow; it finds the same. -/
theorem target?_of_length_le {chars : List Char} (h : a.rest.length ≤ chars.length) :
    a.target? chars = a.target? a.rest :=
  Option.ext fun _ => ⟨fun hd => target?_eq_some_iff.mpr (targets_of_scan hd),
    fun hd => scan_of_targets (target?_eq_some_iff.mp hd) h⟩

theorem Scans.append (h : Scans a false b) (h' : Scans b named c) : Scans a named c := by
  induction h' with
  | first hname => exact .part h hname
  | dot _ hdot ih => exact .dot ih hdot
  | part _ hname ih => exact .part ih hname

/-- A search cuts off tokens up to some place: behind a target, if it finds one, and inside of a name or where it began,
    if not. -/
structure Searched (here : Cursor) (tokens : List Token) (found : Option Cursor) (there : Cursor) : Prop where
  cuts : ∃ modes, Cuts here modes tokens there
  finds : ∀ d, found = some d → there = d
  fails : found = none → there = here ∨ ∃ named, Scans here named there

theorem searched_nothing (here : Cursor) : Searched here [] none here :=
  ⟨⟨[], .nothing⟩, nofun, fun _ => .inl rfl⟩

theorem exists_searched (chars : List Char) (here : Cursor) :
    ∃ there, Searched here (here.search chars).1 (here.search chars).2 there := by
  induction chars generalizing here with
  | nil => exact ⟨here, searched_nothing here⟩
  | cons c chars ih =>
      unfold Cursor.search
      cases hpart : here.next .expression with
      | error e => exact ⟨here, searched_nothing here⟩
      | ok part =>
          dsimp only
          by_cases hname : part.isAmong [.name, .kind .quotedIdentifier] = true
          · rw [if_pos hname]
            have hscans : Scans here true part.finish := .first ⟨part, hpart, hname, rfl⟩
            have hcuts : ∀ {modes tokens there}, Cuts part.finish modes tokens there →
                Cuts here (.expression :: modes) (part :: tokens) there :=
              .token hpart (kind_ne_endOfText hpart hname rfl)
            have hlost : ∃ there, Searched here [part] none there :=
              ⟨part.finish, ⟨_, hcuts .nothing⟩, nofun, fun _ => .inr ⟨true, hscans⟩⟩
            cases htoken : part.finish.next .expression with
            | error e => exact hlost
            | ok token =>
                dsimp only
                by_cases hdot : token.kind = .dot
                -- Behind a dot the search goes on from there.
                · rw [if_pos hdot]
                  have hscans' : Scans here false token.finish :=
                    .dot hscans (takes_kind_iff.mpr ⟨token, htoken, hdot, rfl⟩)
                  obtain ⟨there, ⟨modes, hrest⟩, hfound, hlost⟩ := ih token.finish
                  refine ⟨there, ⟨_, hcuts (.token htoken (by rw [hdot]; decide) hrest)⟩, hfound, fun hnone => ?_⟩
                  rcases hlost hnone with rfl | ⟨named, hmore⟩
                  · exact .inr ⟨false, hscans'⟩
                  · exact .inr ⟨named, hscans'.append hmore⟩
                · rw [if_neg hdot]
                  by_cases hassign : token.kind = .assign
                  · rw [if_pos hassign]
                    refine ⟨token.finish, ⟨_, hcuts (.token htoken (by rw [hassign]; decide) .nothing)⟩, ?_, nofun⟩
                    exact fun d hd => Option.some.inj hd
                  · rw [if_neg hassign]
                    exact hlost
          · rw [if_neg hname]
            exact ⟨here, searched_nothing here⟩

/-! ## What a step takes and tries -/

/-- The tokens that are read on trial in a step. -/
def State.tried (s : State) : List Token :=
  match s.plan with
  | .target _ => (s.cursor.search s.cursor.rest).1
  | _ => []

/-- The tokens that are taken in a step: one that is wanted, or those of a target that is found. -/
def State.taken (s : State) : List Token :=
  match s.plan with
  | .take mode wanted _ _ | .extend mode wanted _ _ =>
    match s.cursor.next mode with
    | .ok token => if token.isAmong wanted then [token] else []
    | .error _ => []
  | .target _ => if (s.cursor.target? s.cursor.rest).isSome then s.tried else []
  | _ => []

theorem tried_eq_nil (h : s.plan.isTarget = false) : s.tried = [] := by
  unfold tried
  split
  · next hplan =>
      rw [hplan] at h
      cases h
  · rfl

/-- What is tried is cut off the text, whatever comes of it. -/
theorem tried_cuts (s : State) : ∃ modes there, Cuts s.cursor modes s.tried there := by
  unfold tried
  split
  · obtain ⟨there, ⟨modes, hcuts⟩, -, -⟩ := exists_searched s.cursor.rest s.cursor
    exact ⟨modes, there, hcuts⟩
  · exact ⟨[], s.cursor, .nothing⟩

/-- A step goes on behind the tokens that it takes. -/
theorem Moves.cuts (h : Moves limit s z) (hs : s.All Plan.sparesEnd) :
    ∃ modes, Cuts s.cursor modes s.taken z.cursor := by
  have hspares := Plan.all_self hs.plan
  cases h with
  | @take mode wanted _ _ _ hplan hnext hamong | @extend mode wanted _ _ _ hplan hnext hamong =>
      simp only [hplan, Plan.sparesEnd, Bool.not_eq_true'] at hspares
      simp only [taken, hplan, hnext, hamong, if_true]
      exact ⟨[mode], .token hnext (kind_ne_endOfText hnext hamong hspares) .nothing⟩
  | miss hplan hnext hamong | pass hplan hnext hamong =>
      simp only [taken, hplan, hnext, hamong, Bool.false_eq_true, if_false]
      exact ⟨[], .nothing⟩
  | target hplan htarget =>
      obtain ⟨there, ⟨modes, hcuts⟩, hfound, -⟩ := exists_searched s.cursor.rest s.cursor
      rw [search_found] at hfound
      obtain rfl := hfound _ htarget
      simp only [taken, tried, hplan, htarget, Option.isSome_some, if_true]
      exact ⟨modes, hcuts⟩
  | noTarget hplan htarget =>
      simp only [taken, hplan, htarget, Option.isSome_none, Bool.false_eq_true, if_false]
      exact ⟨[], .nothing⟩
  | resume hplan | leave hplan | seen hplan | unseen hplan | call hplan | jump hplan | opener hplan | enter hplan =>
      simp only [taken, hplan]
      exact ⟨[], .nothing⟩

/-! ## Trials are apart -/

/-- Before it looks for a target again, the run goes at least as far as the place `b`. -/
def Overtakes (limit : Nat) (s : State) (b : Cursor) : Prop :=
  ∃ z, ReflTransGen (Quiet limit) s z ∧ b.Follows z.cursor

theorem overtakes_cursor (limit : Nat) (s : State) : Overtakes limit s s.cursor := ⟨s, .refl, Cursor.follows_refl _⟩

theorem Moves.overtakes (h : Moves limit s z) (hb : Overtakes limit s b) : Overtakes limit z b := by
  obtain ⟨y, hquiet, hfollows⟩ := hb
  rcases hquiet.cases_head with rfl | ⟨s', hfirst, hrest⟩
  · exact ⟨z, .refl, hfollows.trans h.follows⟩
  · obtain rfl := hfirst.moves.unique h
    exact ⟨y, hrest, hfollows⟩

theorem runs_overtake (h : ReflTransGen (Moves limit) s z) (hb : Overtakes limit s b) : Overtakes limit z b := by
  induction h with
  | refl => exact hb
  | tail _ hmoves ih => exact hmoves.overtakes ih

/-- Where it looks for a target, the run has come as far. -/
theorem Overtakes.follows (h : Overtakes limit s b) (hs : s.plan.isTarget = true) : b.Follows s.cursor := by
  obtain ⟨y, hquiet, hfollows⟩ := h
  rcases hquiet.cases_head with rfl | ⟨s', hfirst, -⟩
  · exact hfollows
  · have hplan := hfirst.plan
    rw [hs] at hplan
    cases hplan

theorem exists_of_isTarget (h : s.plan.isTarget = true) : ∃ next, s.plan = .target next := by
  generalize s.plan = plan at h
  cases plan with
  | target next => exact ⟨next, rfl⟩
  | _ => cases h

/-- What has been tried at a place is taken before the next trial: it is a target, or the name that a condition begins
    with. -/
theorem exists_overtaken (hruns : ReflTransGen (Moves limit) (start text) s) (hs : s.plan.isTarget = true)
    (h : Moves limit s z) : ∃ modes b, Cuts s.cursor modes s.tried b ∧ Overtakes limit z b := by
  obtain ⟨next, hplan⟩ := exists_of_isTarget hs
  have htried : s.tried = (s.cursor.search s.cursor.rest).1 := by rw [tried, hplan]
  obtain ⟨there, ⟨modes, hcuts⟩, hfound, hlost⟩ := exists_searched s.cursor.rest s.cursor
  rw [search_found] at hfound hlost
  refine ⟨modes, there, htried ▸ hcuts, ?_⟩
  cases htarget : Cursor.target? s.cursor.rest s.cursor with
  | some d =>
      obtain rfl := h.unique (.target hplan htarget)
      obtain rfl := hfound d htarget
      exact overtakes_cursor limit _
  | none =>
      obtain rfl := h.unique (.noTarget hplan htarget)
      rcases hlost htarget with rfl | ⟨named, hscans⟩
      · exact overtakes_cursor limit _
      · obtain rfl := next_of_target hruns hplan
        obtain ⟨y, hquiet, rfl, -⟩ : ComesTo limit { s with plan := .jump .boolean } named there :=
          hscans.comesTo rfl rfl
        exact ⟨y, hquiet, Cursor.follows_refl _⟩

/-- The rules that are done with a phrase only when they have taken a token, and look for no target before. -/
def Rule.takesFirst : Rule → Bool
  | boolean | conjunction | negation | predicate | comparison | additive | multiplicative | unary | primary
  | constant => true
  | _ => false

/-- The plan takes a token, or stops, before it is done or looks for a target. -/
def Plan.takesFirst : Plan → Bool
  | done | target _ => false
  | reject .. => true
  | look _ _ yes no => yes.takesFirst && no.takesFirst
  | take _ _ _ no | extend _ _ _ no => no.takesFirst
  | call rule _ | jump rule | enter rule _ => rule.takesFirst
  | opener next => next.takesFirst

theorem Rule.plan_takesFirst {rule : Rule} (h : rule.takesFirst = true) : rule.plan.takesFirst = true := by
  revert h
  cases rule <;> decide

theorem Moves.takesFirst (h : Moves limit s z) (hall : s.All Plan.sparesEnd) (hs : s.plan.takesFirst = true) :
    z.cursor.rest.length < s.cursor.rest.length ∨ z.plan.takesFirst = true := by
  have hspares := Plan.all_self hall.plan
  cases h with
  | take hplan hnext hamong | extend hplan hnext hamong =>
      simp only [hplan, Plan.sparesEnd, Bool.not_eq_true'] at hspares
      exact .inl (finish_length_lt hnext (text_ne_nil hnext hamong hspares))
  | resume hplan | leave hplan | target hplan | noTarget hplan =>
      rw [hplan] at hs
      cases hs
  | seen hplan | unseen hplan =>
      simp only [hplan, Plan.takesFirst, Bool.and_eq_true] at hs
      exact .inr (by simp only [hs])
  | miss hplan | pass hplan | opener hplan =>
      rw [hplan] at hs
      exact .inr hs
  | call hplan | jump hplan | enter hplan =>
      rw [hplan] at hs
      exact .inr (Rule.plan_takesFirst hs)

theorem runs_follow (h : ReflTransGen (Moves limit) s z) : s.cursor.Follows z.cursor := by
  induction h with
  | refl => exact Cursor.follows_refl _
  | tail _ hmoves ih => exact ih.trans hmoves.follows

/-- By induction on the run: as long as nothing is taken, the plan takes first. -/
theorem runs_takesFirst (hruns : ReflTransGen (Moves limit) (start text) s) (hs : s.plan.takesFirst = true)
    (h : ReflTransGen (Moves limit) s z) :
    z.cursor.rest.length < s.cursor.rest.length ∨ z.plan.takesFirst = true := by
  induction h with
  | refl => exact .inr hs
  | tail hbefore hmoves ih =>
      have hbefore_le := (runs_follow hbefore).length_le
      have hle := hmoves.follows.length_le
      rcases ih with hlt | hfirst
      · exact .inl (by omega)
      · have hall := runs_all Rule.spares_end (hruns.trans hbefore)
        exact (hmoves.takesFirst hall hfirst).imp_left fun hlt => by omega

/-- A trial begins behind all that an earlier one has tried, and not at the same place. -/
theorem trials_apart (hruns : ReflTransGen (Moves limit) (start text) s) (hs : s.plan.isTarget = true)
    (hmoves : Moves limit s y) (hrest : ReflTransGen (Moves limit) y z) (hz : z.plan.isTarget = true) :
    z.cursor.rest.length < s.cursor.rest.length ∧ ∀ token ∈ s.tried, token.finish.Follows z.cursor := by
  obtain ⟨modes, b, hcuts, hovertakes⟩ := exists_overtaken hruns hs hmoves
  have hfollows := (runs_overtake hrest hovertakes).follows hz
  refine ⟨?_, fun token hmem => (hcuts.finish_follows token hmem).trans hfollows⟩
  obtain ⟨next, hplan⟩ := exists_of_isTarget hs
  have hle := (runs_follow hrest).length_le
  cases htarget : Cursor.target? s.cursor.rest s.cursor with
  | some d =>
      obtain rfl := hmoves.unique (.target hplan htarget)
      exact Nat.lt_of_le_of_lt hle (target?_eq_some_iff.mp htarget).length_lt
  | none =>
      have hnext := next_of_target hruns hplan
      have hfirst : y.plan.takesFirst = true := by
        rw [hmoves.unique (.noTarget hplan htarget), hnext]
        rfl
      rcases runs_takesFirst (hruns.tail hmoves) hfirst hrest with hlt | hnone
      · exact Nat.lt_of_lt_of_le hlt hmoves.follows.length_le
      · obtain ⟨next', hplan'⟩ := exists_of_isTarget hz
        rw [hplan'] at hnone
        cases hnone

/-! ## Accounts -/

/-- `Spends strategy s n used trials z`: from `s` to `z` a run takes `n` steps, takes the tokens `used`, and reads the
    tokens `trials` on trial. -/
inductive Spends (strategy : Strategy) (s : State) : Nat → List Token → List Token → State → Prop where
  | nothing : Spends strategy s 0 [] [] s
  | step {n : Nat} {used trials : List Token} {y z : State} : Spends strategy s n used trials y →
      y.step strategy = .goesOn z → Spends strategy s (n + 1) (used ++ y.taken) (trials ++ y.tried) z

theorem Spends.reaches (h : Spends strategy s n used trials z) : Reaches strategy s z := by
  induction h with
  | nothing => exact .refl
  | step _ hstep ih => exact ih.tail hstep

theorem Reaches.spends (h : Reaches strategy s z) : ∃ n used trials, Spends strategy s n used trials z := by
  induction h with
  | refl => exact ⟨0, [], [], .nothing⟩
  | tail _ hstep ih =>
      obtain ⟨n, used, trials, hspends⟩ := ih
      exact ⟨_, _, _, hspends.step hstep⟩

/-- A step of a run on a text is a move. -/
theorem Reaches.moves_next (h : Reaches strategy (start text) y) (hstep : y.step strategy = .goesOn z) :
    Moves strategy.limit y.bare z.bare := by
  have hspec := step_spec strategy (h.moves (start_coherent text)).2
  rw [hstep] at hspec
  exact hspec.1

theorem Reaches.spares_end (h : Reaches strategy (start text) s) : s.bare.All Plan.sparesEnd :=
  runs_all Rule.spares_end (h.moves (start_coherent text)).1

/-- Every step is paid from the potential. -/
theorem Spends.potential_le (hs : Reaches strategy (start text) s) (h : Spends strategy s n used trials z) :
    n + z.potential ≤ s.potential := by
  induction h with
  | nothing => exact Nat.le_of_eq (Nat.zero_add _)
  | @step n _ _ y z hspends hstep ih =>
      have hy : Reaches strategy (start text) y := hs.trans hspends.reaches
      have hlt : z.potential < y.potential := (hy.moves_next hstep).potential_lt hy.spares_end
      omega

/-- What is taken is the text, token by token. -/
theorem Spends.cuts (hs : Reaches strategy (start text) s) (h : Spends strategy s n used trials z) :
    ∃ modes, Cuts s.cursor modes used z.cursor := by
  induction h with
  | nothing => exact ⟨[], .nothing⟩
  | @step _ _ _ y _ hspends hstep ih =>
      have hy : Reaches strategy (start text) y := hs.trans hspends.reaches
      obtain ⟨modes, hbefore⟩ := ih
      obtain ⟨modes', hcuts⟩ := (hy.moves_next hstep).cuts hy.spares_end
      exact ⟨modes ++ modes', hbefore.append hcuts⟩

/-- A run does not come back to a plan, with nothing gone from the stack, without a token. -/
theorem Spends.exists_used (hs : Reaches strategy (start text) s) (h : Spends strategy s n used trials z) (hn : 0 < n)
    (hplan : z.plan = s.plan) (hstack : s.stack <:+ z.stack) : ∃ token ∈ used, token.kind ≠ .endOfText := by
  obtain ⟨modes, hcuts⟩ := h.cuts hs
  have hused : used ≠ [] := by
    rintro rfl
    have hle := h.potential_le hs
    have hcursor : z.cursor = s.cursor := hcuts.eq_of_nil
    obtain ⟨more, hmore⟩ := hstack
    simp only [potential, hcursor, hplan, ← hmore, List.map_append, List.sum_append] at hle
    omega
  obtain ⟨token, hmem⟩ := List.exists_mem_of_ne_nil used hused
  exact ⟨token, hmem, hcuts.spares_end token hmem⟩

theorem Spends.trials_spare_end (h : Spends strategy s n used trials z) : ∀ token ∈ trials, token.kind ≠ .endOfText := by
  induction h with
  | nothing => exact fun _ hmem => absurd hmem List.not_mem_nil
  | @step _ _ _ y _ _ _ ih =>
      obtain ⟨modes, there, hcuts⟩ := tried_cuts y
      intro token hmem
      rcases List.mem_append.mp hmem with hbefore | htried
      · exact ih token hbefore
      · exact hcuts.spares_end token htried

/-- By induction on the run: all that has been tried lies in front of a place that is overtaken before the next trial. -/
theorem Spends.trials_overtaken (h : Spends strategy (start text) n used trials z) :
    ∃ b, trials.length + b.rest.length ≤ text.length ∧ Overtakes strategy.limit z.bare b := by
  induction h with
  | nothing => exact ⟨Cursor.start text, Nat.le_of_eq (Nat.zero_add _), overtakes_cursor _ _⟩
  | @step _ _ trials y z hspends hstep ih =>
      obtain ⟨b, hle, hovertakes⟩ := ih
      have hmoves := hspends.reaches.moves_next hstep
      cases htarget : y.plan.isTarget with
      | true =>
          have hreached : y.cursor.rest.length ≤ b.rest.length := (hovertakes.follows htarget).length_le
          have hruns := (hspends.reaches.moves (start_coherent text)).1
          obtain ⟨modes, b', hcuts, hovertakes'⟩ := exists_overtaken hruns htarget hmoves
          have htried : y.tried.length + b'.rest.length ≤ y.cursor.rest.length := hcuts.length_le
          refine ⟨b', ?_, hovertakes'⟩
          rw [List.length_append]
          omega
      | false =>
          rw [tried_eq_nil htarget, List.append_nil]
          exact ⟨b, hle, hmoves.overtakes hovertakes⟩

/-! ## Bounds -/

/-- More steps than the bound change nothing: the run on a text has the verdict on it. -/
theorem run_of_le {fuel : Nat} (h : stepsPerCharacter * (text.length + 1) ≤ fuel) :
    (start text).run strategy fuel = some (checkBy strategy text) := by
  have hpotential := Nat.le_trans (start_potential_le text) h
  obtain ⟨verdict, hrun⟩ := run_ends strategy (start_coherent text) (start_all Rule.spares_end text) hpotential
  obtain ⟨s, hreaches, hstops⟩ := exists_reaches hrun
  obtain ⟨s', hreaches', hstops'⟩ := checkBy_spec strategy text
  obtain rfl := hreaches.unique hstops hreaches' hstops'
  rw [hstops] at hstops'
  cases hstops'
  exact hrun

/-- Of two trials in a run, the second begins behind all that the first has tried. -/
theorem Spends.apart (hs : Reaches strategy (start text) s) (h : Spends strategy s n used trials z) (hn : 0 < n)
    (htarget : s.plan.isTarget = true) (htarget' : z.plan.isTarget = true) :
    z.cursor.rest.length < s.cursor.rest.length ∧ ∀ token ∈ s.tried, token.finish.Follows z.cursor := by
  rcases h.reaches.cases_head with rfl | ⟨y, hstep, hrest⟩
  · have hle := h.potential_le hs
    omega
  · have hruns := (hs.moves (start_coherent text)).1
    have hmoves := hs.moves_next hstep
    have hy : Reaches strategy (start text) y := hs.tail hstep
    have hrest' := (Reaches.moves (hy.moves (start_coherent text)).2 hrest).1
    exact trials_apart (s := s.bare) (z := z.bare) hruns htarget hmoves hrest' htarget'

/-- **A run ends, and the text bounds what it spends.** A run on a text comes to a state in which it stops; 64 steps for
    each character and for the end of the text are enough, so the verdict is never cut short. At any time the tokens
    that have been taken are those of the text, one behind the other, no more than it has characters; and no more have
    been read on trial, in all trials together. The end of the text is neither taken nor tried. No more levels of nesting
    are open than may be, and in each of them, as outside of all, there are at most twelve frames on the stack. A trial
    ends before it has used up the characters that follow. A run that comes back to a plan, with nothing gone from the
    stack, has taken a token on the way; and a trial begins behind all that an earlier one has read, so nothing is tried
    twice. -/
theorem effort_bounded (strategy : Strategy) (text : String) :
    (∃ n used trials s, Spends strategy (start text.toList) n used trials s ∧
      s.step strategy = .stops (checkBy strategy text.toList)) ∧
    (∀ fuel, stepsPerCharacter * (text.length + 1) ≤ fuel →
      (start text.toList).run strategy fuel = some (checkBy strategy text.toList)) ∧
    ∀ n used trials s, Spends strategy (start text.toList) n used trials s →
      n < stepsPerCharacter * (text.length + 1) ∧
      (∃ modes, Cuts (Cursor.start text.toList) modes used s.cursor) ∧
      used.length ≤ text.length ∧ trials.length ≤ text.length ∧
      (∀ token ∈ used ++ trials, token.kind ≠ .endOfText) ∧
      s.Counts strategy.limit ∧ s.stack.length ≤ framesPerLevel * (strategy.limit + 1) ∧
      (∀ ahead, s.cursor.rest.length ≤ ahead.length → s.target? strategy ahead = s.target? strategy s.cursor.rest) ∧
      ∀ n' used' trials' z, Spends strategy s (n' + 1) used' trials' z →
        (z.plan = s.plan → s.stack <:+ z.stack → ∃ token ∈ used', token.kind ≠ .endOfText) ∧
        (s.plan.isTarget = true → z.plan.isTarget = true →
          z.cursor.rest.length < s.cursor.rest.length ∧ ∀ token ∈ s.tried, token.finish.Follows z.cursor) := by
  have hlength : text.toList.length = text.length := String.length_toList
  refine ⟨?_, fun fuel hfuel => run_of_le (by rwa [hlength]), ?_⟩
  · obtain ⟨s, hreaches, hstops⟩ := checkBy_spec strategy text.toList
    obtain ⟨n, used, trials, hspends⟩ := hreaches.spends
    exact ⟨n, used, trials, s, hspends, hstops⟩
  · intro n used trials s h
    have hs := h.reaches
    obtain ⟨hruns, hcoherent⟩ := hs.moves (start_coherent text.toList)
    have hcounts : s.bare.Counts strategy.limit := runs_count hruns
    have hstack : s.bare.stack.length ≤ framesPerLevel * (strategy.limit + 1) := stack_bounded hruns
    have hpotential := Nat.le_trans (h.potential_le .refl) (start_potential_le text.toList)
    obtain ⟨modes, hcuts⟩ := h.cuts .refl
    obtain ⟨b, htrials, -⟩ := h.trials_overtaken
    have hpos := s.plan.cost_pos
    have hused : used.length + s.cursor.rest.length ≤ text.toList.length := hcuts.length_le
    rw [hlength] at hpotential hused htrials
    refine ⟨?_, ⟨modes, hcuts⟩, by omega, by omega, ?_, ⟨hcounts.depth, hcounts.le⟩, hstack, ?_, ?_⟩
    · unfold potential at hpotential
      omega
    · exact List.forall_mem_append.mpr ⟨hcuts.spares_end, h.trials_spare_end⟩
    · intro ahead hahead
      rw [target?_eq strategy _ hcoherent, target?_eq strategy _ hcoherent, target?_of_length_le hahead]
    · intro n' used' trials' z hspends
      exact ⟨hspends.exists_used hs n'.succ_pos, hspends.apart hs n'.succ_pos⟩

end Esql.Syntax
