import Esql.Proofs.Recognizer.Located
import Esql.Proofs.Recognizer.Lockstep

/-!
# `Proofs.Recognizer.Nesting` — the limit of nesting changes nothing else

A run does not depend on how many levels may be open, until a level has to be entered that may not be entered.
So with a greater limit the run on a text is the same, or it goes on where the other run stopped, and stops, if
it does, at a fault behind the opener that the other run blames (`limit_neutral`).

What is blamed is a token that opens a level: the parenthesis, the sign or the `NOT` that was taken last, or
the name of the function whose parenthesis was taken last (`Opens`). The plans see to that (`Plan.opensHere`).

## Contents
- `Position.Before`, and `Onward`: what a run looks at lies behind the place from which it is followed.
- `State.levels`: the levels that are open.
- `Opening`: what is remembered where a level is entered.
- Runs with a greater limit, and `limit_neutral`.
-/

namespace Esql.Text.Position

/-- A place in an earlier line, or earlier in the line. -/
def Before (p q : Position) : Prop := p.line < q.line ∨ (p.line = q.line ∧ p.column < q.column)

theorem Before.trans {p q r : Position} (h : p.Before q) (h' : q.Before r) : p.Before r := by
  unfold Before at *
  omega

theorem before_advance (p : Position) (c : Char) : p.Before (p.advance c) := by
  unfold Before advance
  split
  · exact .inl (Nat.lt_succ_self _)
  · exact .inr ⟨rfl, Nat.lt_succ_self _⟩

/-- A place lies before the place behind some characters. -/
theorem before_after (p : Position) {cs : List Char} (h : cs ≠ []) : p.Before (p.after cs) := by
  induction cs generalizing p with
  | nil => exact absurd rfl h
  | cons c cs ih =>
      rw [after_cons]
      by_cases hcs : cs = []
      · subst hcs
        exact before_advance p c
      · exact (before_advance p c).trans (ih _ hcs)

end Esql.Text.Position

namespace Esql.Syntax

open State
open Esql.Text (Position)
open Relation (ReflTransGen)

variable {limit n m : Nat} {mode : Mode} {wanted : List Terminal} {s s' z : State} {a b c : Cursor}
  {v : Except SyntaxError Unit} {text : List Char}

/-! ## What a run looks at -/

/-- From a place on, a run looks only at what follows it; so does the opener that is remembered, unless another
is remembered before it may be blamed. -/
structure Onward (a : Cursor) (s : State) : Prop where
  cursor : a.Follows s.cursor
  opener : s.plan.guarded = true ∨ ∃ here, a.Follows here ∧ here.next .expression = .ok s.opener

/-- A move does not go back. -/
theorem Moves.follows (h : Moves limit s z) : s.cursor.Follows z.cursor := by
  cases h with
  | take _ hnext | extend _ hnext => exact (follows_token hnext).2
  | target _ htarget => exact (target?_eq_some_iff.mp htarget).follows
  | _ => exact Cursor.follows_refl _

theorem Moves.onward (h : Moves limit s z) (hopen : s.Open) (hs : Onward a s) : Onward a z := by
  obtain ⟨hcursor, hopener⟩ := hs
  have hblames := h.blames (P := fun t => ∃ here, a.Follows here ∧ here.next .expression = .ok t) hopen hopener
    fun _ _ _ hnext => ⟨s.cursor, hcursor, hnext⟩
  exact ⟨hcursor.trans h.follows, hblames⟩

theorem runs_onward (hs : ReflTransGen (Moves limit) (start text) s) (ha : Onward a s)
    (h : ReflTransGen (Moves limit) s z) : Onward a z := by
  induction h with
  | refl => exact ha
  | tail hruns hmoves ih => exact hmoves.onward (runs_open (hs.trans hruns)) ih

theorem start_onward (text : List Char) : Onward (Cursor.start text) (start text) :=
  ⟨Cursor.follows_refl _, .inl (Rule.guarded .statement)⟩

/-- The place of a fault follows the place from which the run was followed. -/
theorem Stops.follows {e : SyntaxError} (h : Stops limit s (.error e)) (hs : Onward a s) :
    ∃ rest, a.Follows ⟨e.position, rest⟩ := by
  obtain ⟨hcursor, hopener⟩ := hs
  cases h with
  | unrecognised _ hnext =>
      obtain ⟨gap, refused, rest, hrest, -, rfl⟩ := next_refused hnext
      exact ⟨refused ++ rest, hcursor.trans ⟨gap, hrest, rfl⟩⟩
  | mismatch _ hnext => exact ⟨_, hcursor.trans (follows_token hnext).1⟩
  | tooDeep henter _ =>
      rw [henter] at hopener
      obtain ⟨here, hhere, hnext⟩ := hopener.resolve_left Bool.false_ne_true
      exact ⟨_, hhere.trans (follows_token hnext).1⟩

/-! ## Levels -/

/-- The level that is left with a frame. -/
def Frame.levels : Frame → Nat
  | resume _ => 0
  | leave => 1

/-- How many levels of nesting are open. -/
def State.levels (s : State) : Nat := (s.stack.map Frame.levels).sum

/-- The depth counts the levels that are open, and these are no more than may be. -/
structure State.Counts (limit : Nat) (s : State) : Prop where
  depth : s.depth = s.levels
  le : s.levels ≤ limit

theorem Moves.counts (h : Moves limit s z) (hs : s.Counts limit) : z.Counts limit := by
  obtain ⟨hdepth, hle⟩ := hs
  unfold levels at hdepth hle
  cases h with
  | resume _ hframe =>
      simp only [hframe, List.map_cons, List.sum_cons, Frame.levels, Nat.zero_add] at hdepth hle
      exact ⟨hdepth, hle⟩
  | leave _ hframe =>
      simp only [hframe, List.map_cons, List.sum_cons, Frame.levels] at hdepth hle
      exact ⟨by simp only [levels]; omega, by simp only [levels]; omega⟩
  | call =>
      refine ⟨?_, ?_⟩ <;> simpa only [levels, List.map_cons, List.sum_cons, Frame.levels, Nat.zero_add]
  | enter _ hlt =>
      refine ⟨?_, ?_⟩ <;> simp only [levels, List.map_cons, List.sum_cons, Frame.levels] <;> omega
  | _ => exact ⟨hdepth, hle⟩

theorem runs_count (h : ReflTransGen (Moves limit) (start text) s) : s.Counts limit := by
  induction h with
  | refl => exact ⟨rfl, Nat.zero_le _⟩
  | tail _ hmoves ih => exact hmoves.counts ih

/-! ## What opens a level -/

/-- The tokens that open a level by themselves. -/
def openers : List Terminal := [.kind .leftParen, .kind .plus, .kind .minus, .word .NOT]

/-- What may name a function. -/
def functionNames : List Terminal := [.name, .kind .quotedIdentifier]

/-- A token opens a level: by itself, or as a name in front of a parenthesis. The level begins at `b`. -/
inductive Opens (token : Token) (b : Cursor) : Prop where
  | mark : token.isAmong openers = true → token.finish = b → Opens token b
  | name : token.isAmong functionNames = true → Takes .expression [.kind .leftParen] token.finish b →
      Opens token b

/-- Behind the name that is remembered, the plan enters a level with the parenthesis. -/
def Plan.opensBehind : Plan → Bool
  | extend mode wanted yes no => mode = .expression && wanted = [.kind .leftParen] && yes.isEnter && no.guarded
  | _ => false

/-- The plan enters a level only behind the next token, which is remembered. -/
def Plan.opensHere : Plan → Bool
  | look _ _ yes no => yes.opensHere && no.opensHere
  | take mode wanted yes no | extend mode wanted yes no =>
    no.opensHere &&
      (yes.guarded ||
        mode = .expression &&
          (yes.isEnter && wanted.all (openers.contains ·) ||
            yes.opensBehind && wanted.all (functionNames.contains ·)))
  | plan => plan.guarded

/-- What is remembered as an opener opens the next level. -/
def Plan.blamesOpener : Plan → Bool
  | opener next => next.opensHere
  | _ => true

theorem Rule.blames_opener (rule : Rule) : rule.plan.all Plan.blamesOpener = true := by
  cases rule <;> decide +kernel

/-- How far the opener of the next level has been read. -/
inductive Opening (s : State) : Prop where
  | none : s.plan.guarded = true → Opening s
  | here : s.plan.opensHere = true → s.cursor.next .expression = .ok s.opener → Opening s
  | behind : s.plan.opensBehind = true → s.opener.isAmong functionNames = true → s.opener.finish = s.cursor →
      Opening s
  | opened : s.plan.isEnter = true → Opens s.opener s.cursor → Opening s

theorem isAmong_of_all {token : Token} {others : List Terminal} (h : token.isAmong wanted = true)
    (hall : wanted.all (others.contains ·) = true) : token.isAmong others = true := by
  refine isAmong_mono (fun t ht => ?_) h
  exact List.contains_iff_mem.mp (List.all_eq_true.mp hall t ht)

/-- Behind a token that was taken, the level that it opens is entered. -/
theorem opening_behind {token : Token} {yes : Plan} (hs : s.cursor.next .expression = .ok s.opener)
    (hnext : s.cursor.next mode = .ok token) (hamong : token.isAmong wanted = true)
    (hyes : (yes.guarded || mode = .expression && (yes.isEnter && wanted.all (openers.contains ·) ||
      yes.opensBehind && wanted.all (functionNames.contains ·))) = true) :
    Opening { s with cursor := token.finish, expected := [], plan := yes } := by
  simp only [Bool.or_eq_true, Bool.and_eq_true, decide_eq_true_eq] at hyes
  rcases hyes with hguarded | ⟨rfl, hyes⟩
  · exact .none hguarded
  · obtain rfl : token = s.opener := Except.ok.inj (hnext.symm.trans hs)
    rcases hyes with ⟨henter, hall⟩ | ⟨hbehind, hall⟩
    · exact .opened henter (.mark (isAmong_of_all hamong hall) rfl)
    · exact .behind hbehind (isAmong_of_all hamong hall) rfl

/-- A plan that neither enters a level nor goes on behind a name has read nothing of an opener. -/
theorem Opening.unread (h : Opening s) (henter : s.plan.isEnter = false) (hbehind : s.plan.opensBehind = false) :
    s.plan.guarded = true ∨ (s.plan.opensHere = true ∧ s.cursor.next .expression = .ok s.opener) := by
  cases h with
  | none hguarded => exact .inl hguarded
  | here hhere hnext => exact .inr ⟨hhere, hnext⟩
  | behind hname =>
      rw [hbehind] at hname
      cases hname
  | opened hopened =>
      rw [henter] at hopened
      cases hopened

theorem Moves.opening (h : Moves limit s z) (hopen : s.Open) (hall : s.All Plan.blamesOpener) (hs : Opening s) :
    Opening z := by
  have hstack := hopen.stack
  have hblames := Plan.all_self hall.plan
  cases h with
  | resume _ hframe =>
      rw [hframe] at hstack
      exact .none hstack.2.1
  | leave => exact .none rfl
  | call | jump | enter => exact .none (Rule.guarded _)
  | opener hplan hnext =>
      rw [hplan] at hblames
      exact .here hblames hnext
  | target hplan | noTarget hplan =>
      have hunread := hs.unread (by rw [hplan]; rfl) (by rw [hplan]; rfl)
      rw [hplan] at hunread
      exact .none (hunread.elim id And.left)
  | seen hplan | unseen hplan =>
      have hunread := hs.unread (by rw [hplan]; rfl) (by rw [hplan]; rfl)
      simp only [hplan, Plan.guarded, Plan.opensHere, Bool.and_eq_true] at hunread
      rcases hunread with hguarded | ⟨hhere, hnext⟩
      · exact .none (by simp only [hguarded])
      · exact .here (by simp only [hhere]) hnext
  | miss hplan =>
      have hunread := hs.unread (by rw [hplan]; rfl) (by rw [hplan]; rfl)
      simp only [hplan, Plan.guarded, Plan.opensHere, Bool.and_eq_true] at hunread
      rcases hunread with hguarded | ⟨hhere, hnext⟩
      · exact .none hguarded.2
      · exact .here hhere.1 hnext
  | take hplan hnext hamong =>
      have hunread := hs.unread (by rw [hplan]; rfl) (by rw [hplan]; rfl)
      simp only [hplan, Plan.guarded, Plan.opensHere, Bool.and_eq_true] at hunread
      rcases hunread with hguarded | ⟨hhere, hnext'⟩
      · exact .none hguarded.1
      · exact opening_behind hnext' hnext hamong hhere.2
  -- Only here a name may have been read, whose parenthesis is looked for.
  | pass hplan =>
      cases hs with
      | none hguarded =>
          simp only [hplan, Plan.guarded, Bool.and_eq_true] at hguarded
          exact .none hguarded.2
      | here hhere hnext =>
          simp only [hplan, Plan.opensHere, Bool.and_eq_true] at hhere
          exact .here hhere.1 hnext
      | behind hbehind =>
          simp only [hplan, Plan.opensBehind, Bool.and_eq_true] at hbehind
          exact .none hbehind.2
      | opened henter =>
          rw [hplan] at henter
          cases henter
  | extend hplan hnext hamong =>
      cases hs with
      | none hguarded =>
          simp only [hplan, Plan.guarded, Bool.and_eq_true] at hguarded
          exact .none hguarded.1
      | here hhere hnext' =>
          simp only [hplan, Plan.opensHere, Bool.and_eq_true] at hhere
          exact opening_behind hnext' hnext hamong hhere.2
      | behind hbehind hname hfinish =>
          simp only [hplan, Plan.opensBehind, Bool.and_eq_true, decide_eq_true_eq] at hbehind
          obtain ⟨⟨⟨rfl, rfl⟩, henter⟩, -⟩ := hbehind
          exact .opened henter (.name hname (hfinish ▸ ⟨_, hnext, hamong, rfl⟩))
      | opened henter =>
          rw [hplan] at henter
          cases henter

theorem runs_opening (h : ReflTransGen (Moves limit) (start text) s) : Opening s := by
  induction h with
  | refl => exact .none (Rule.guarded .statement)
  | tail hruns hmoves ih => exact hmoves.opening (runs_open hruns) (runs_all Rule.blames_opener hruns) ih

/-- A token of a text that opens a level, which begins at `b`. -/
structure OpensIn (text : List Char) (token : Token) (b : Cursor) : Prop where
  looked : ∃ here : Cursor, here.IsIn text ∧ here.next .expression = .ok token
  opens : Opens token b

/-- Where a level is to be entered, the opener has just been read. -/
theorem opensIn_of_enter {rule : Rule} {next : Plan} (h : ReflTransGen (Moves limit) (start text) s)
    (hplan : s.plan = .enter rule next) : OpensIn text s.opener s.cursor := by
  refine ⟨?_, ?_⟩
  · have honward := (runs_onward .refl (start_onward text) h).opener
    rw [hplan] at honward
    obtain ⟨here, hfollows, hnext⟩ := honward.resolve_left Bool.false_ne_true
    exact ⟨here, hfollows.isIn (start_isIn text), hnext⟩
  · cases runs_opening h with
    | opened _ hopens => exact hopens
    | none hunread | here hunread | behind hunread =>
        rw [hplan] at hunread
        cases hunread

theorem Opens.text_ne_nil {token : Token} (h : Opens token b) (hnext : a.next mode = .ok token) :
    token.text ≠ [] := by
  cases h with
  | mark hamong _ => exact Syntax.text_ne_nil hnext hamong rfl
  | name hamong _ => exact Syntax.text_ne_nil hnext hamong rfl

theorem Opens.follows {token : Token} (h : Opens token b) : token.finish.Follows b := by
  cases h with
  | mark _ hfinish =>
      subst hfinish
      exact Cursor.follows_refl _
  | name _ hparen => exact hparen.follows

/-! ## Runs with a greater limit -/

/-- A move is one with every limit that allows the level which it enters. -/
theorem Moves.relimit (h : Moves m s z) (hlt : s.plan.isEnter = true → s.depth < n) : Moves n s z := by
  cases h with
  | enter hplan _ => exact .enter hplan (hlt (by rw [hplan]; rfl))
  | resume hplan hframe => exact .resume hplan hframe
  | leave hplan hframe => exact .leave hplan hframe
  | seen hplan hnext hamong => exact .seen hplan hnext hamong
  | unseen hplan hnext hamong => exact .unseen hplan hnext hamong
  | take hplan hnext hamong => exact .take hplan hnext hamong
  | miss hplan hnext hamong => exact .miss hplan hnext hamong
  | extend hplan hnext hamong => exact .extend hplan hnext hamong
  | pass hplan hnext hamong => exact .pass hplan hnext hamong
  | call hplan => exact .call hplan
  | jump hplan => exact .jump hplan
  | opener hplan hnext => exact .opener hplan hnext
  | target hplan htarget => exact .target hplan htarget
  | noTarget hplan htarget => exact .noTarget hplan htarget

theorem Moves.depth_lt (h : Moves n s z) (henter : s.plan.isEnter = true) : s.depth < n := by
  cases h <;> simp_all [Plan.isEnter]

theorem Moves.raise (h : Moves n s z) (hle : n ≤ m) : Moves m s z :=
  h.relimit fun henter => Nat.lt_of_lt_of_le (h.depth_lt henter) hle

theorem runs_raise (h : ReflTransGen (Moves n) s z) (hle : n ≤ m) : ReflTransGen (Moves m) s z := by
  induction h with
  | refl => exact .refl
  | tail _ hmoves ih => exact ih.tail (hmoves.raise hle)

/-- A level is to be entered that may not be entered. -/
structure State.Exceeds (limit : Nat) (s : State) : Prop where
  plan : ∃ rule next, s.plan = .enter rule next
  depth : limit ≤ s.depth

theorem State.Exceeds.stops (h : s.Exceeds n) : Stops n s (.error ⟨s.opener.start, .tooDeep n s.opener.shown⟩) := by
  obtain ⟨⟨rule, next, hplan⟩, hdepth⟩ := h
  exact .tooDeep hplan hdepth

/-- A run with any other limit goes the same way as long as no level is to be entered that may not. -/
theorem runs_or_exceeds (h : ReflTransGen (Moves m) (start text) s) :
    ReflTransGen (Moves n) (start text) s ∨
      ∃ s₀, ReflTransGen (Moves n) (start text) s₀ ∧ s₀.Exceeds n := by
  induction h with
  | refl => exact .inl .refl
  | @tail y z _ hmoves ih =>
      rcases ih with hruns | hexceeds
      -- Only a move that enters a level asks for the limit.
      · by_cases hlt : y.plan.isEnter = true → y.depth < n
        · exact .inl (hruns.tail (hmoves.relimit hlt))
        · rw [Classical.not_imp, Nat.not_lt] at hlt
          obtain ⟨henter, hdepth⟩ := hlt
          refine .inr ⟨y, hruns, ?_, hdepth⟩
          cases hplan : y.plan with
          | enter rule next => exact ⟨rule, next, rfl⟩
          | _ =>
              rw [hplan] at henter
              cases henter
      · exact .inr hexceeds

/-- A run that ends for another reason than its limit ends so with every limit. -/
theorem Stops.exceeds_or (h : Stops n s v) : s.Exceeds n ∨ ∀ limit, Stops limit s v := by
  cases h with
  | tooDeep hplan hdepth => exact .inl ⟨⟨_, _, hplan⟩, hdepth⟩
  | accept hplan hframe => exact .inr fun _ => .accept hplan hframe
  | unrecognised hmode hnext => exact .inr fun _ => .unrecognised hmode hnext
  | mismatch hplan hnext => exact .inr fun _ => .mismatch hplan hnext

/-- Only where a level would exceed the limit is the limit the fault. -/
theorem Stops.exceeds {place : Position} {opener : String} (h : Stops n s (.error ⟨place, .tooDeep m opener⟩)) :
    s.Exceeds n := by
  cases h with
  | tooDeep hplan hdepth => exact ⟨⟨_, _, hplan⟩, hdepth⟩
  | unrecognised _ hnext =>
      obtain ⟨_, _, _, -, -, hfault⟩ := next_refused hnext
      cases hfault

/-- A fault at a place behind a token. -/
structure IsBehind (token : Token) (e : SyntaxError) : Prop where
  follows : ∃ rest, token.finish.Follows ⟨e.position, rest⟩
  before : token.start.Before e.position

/-- With a limit that allows the level, a fault lies behind the opener. -/
theorem behind_opener {strategy : Strategy} {e : SyntaxError}
    (h : ReflTransGen (Moves strategy.limit) (start text) s) (henter : ∃ rule next, s.plan = .enter rule next)
    (hdepth : s.depth < strategy.limit) (hfault : checkBy strategy text = .error e) : IsBehind s.opener e := by
  obtain ⟨rule, next, hplan⟩ := henter
  obtain ⟨⟨here, -, hnext⟩, hopens⟩ := opensIn_of_enter h hplan
  have hentered := h.tail (.enter hplan hdepth)
  obtain ⟨z, hruns, hstops⟩ := checkBy_stops strategy text
  rw [hfault] at hstops
  have honward := runs_onward (a := s.cursor) hentered ⟨Cursor.follows_refl _, .inl (Rule.guarded _)⟩
    (runs_to_end hruns hstops hentered)
  obtain ⟨rest, hplace⟩ := hstops.follows honward
  have hfollows := hopens.follows.trans hplace
  refine ⟨⟨rest, hfollows⟩, ?_⟩
  obtain ⟨q, -, hposition⟩ := hfollows
  change e.position = (s.opener.start.after s.opener.text).after q at hposition
  rw [hposition, ← Position.after_append]
  exact Position.before_after _ fun hnil => hopens.text_ne_nil hnext (List.append_eq_nil_iff.mp hnil).1

/-- Each state of a run, without the token that it keeps, is one that the recognizer comes to. -/
theorem reaches_of_runs {strategy : Strategy} (h : ReflTransGen (Moves strategy.limit) (start text) z) :
    ∃ s, Reaches strategy (start text) s ∧ s.bare = z := by
  induction h with
  | refl => exact ⟨start text, .refl, rfl⟩
  | @tail y z _ hmoves ih =>
      obtain ⟨s, hreaches, rfl⟩ := ih
      have hspec := step_spec strategy (hreaches.moves (start_coherent text)).2
      cases hstep : s.step strategy with
      | goesOn s₁ =>
          rw [hstep] at hspec
          exact ⟨s₁, hreaches.tail hstep, hspec.1.unique hmoves⟩
      | stops verdict =>
          rw [hstep] at hspec
          exact absurd hmoves hspec.ends

/-! ## Verdicts with a greater limit -/

/-- A greater limit gives the same verdict, unless the lesser one is exceeded by a level that the greater one
allows. -/
theorem verdict_or_exceeds (hle : n ≤ m) (text : List Char) :
    checkBy { limit := n } text = checkBy { limit := m } text ∨
      ∃ s, ReflTransGen (Moves n) (start text) s ∧ s.Exceeds n ∧ s.depth < m := by
  obtain ⟨s, hruns, hstops⟩ := checkBy_stops { limit := n } text
  rcases hstops.exceeds_or with hexceeds | hall
  · by_cases hdepth : s.depth < m
    · exact .inr ⟨s, hruns, hexceeds, hdepth⟩
    · obtain ⟨hcount, hopen⟩ := runs_count hruns
      obtain rfl : n = m := by
        simp only at hopen
        omega
      exact .inl rfl
  · exact .inl (checkBy_eq_of_stops (runs_raise hruns hle) (hall m)).symm

theorem checkBy_of_exceeds (h : ReflTransGen (Moves n) (start text) s) (hexceeds : s.Exceeds n) :
    checkBy { limit := n } text = .error ⟨s.opener.start, .tooDeep n s.opener.shown⟩ :=
  checkBy_eq_of_stops h hexceeds.stops

/-- A text is refused for its nesting just if more levels are open at once with a greater limit. -/
theorem tooDeep_iff_levels (hlt : n < m) (text : List Char) :
    (∃ place opener, checkBy { limit := n } text = .error ⟨place, .tooDeep n opener⟩) ↔
      ∃ s, Reaches { limit := m } (start text) s ∧ n < s.levels := by
  constructor
  · rintro ⟨place, opener, hfault⟩
    obtain ⟨s, hruns, hstops⟩ := checkBy_stops { limit := n } text
    rw [hfault] at hstops
    obtain ⟨⟨rule, next, hplan⟩, hdepth⟩ := hstops.exceeds
    obtain ⟨hcount, hopen⟩ := runs_count hruns
    have hentered := (runs_raise hruns (Nat.le_of_lt hlt)).tail (.enter hplan (by simp only at hopen; omega))
    have hreached : ∃ z, Reaches { limit := m } (start text) z ∧ z.bare = _ := reaches_of_runs hentered
    obtain ⟨z, hreaches, hbare⟩ := hreached
    refine ⟨z, hreaches, ?_⟩
    have hlevels : z.levels = 1 + s.levels := by
      change z.bare.levels = _
      rw [hbare]
      simp [levels, Frame.levels]
    simp only at hdepth
    omega
  · rintro ⟨s, hreaches, hlevels⟩
    have hruns := (hreaches.moves (start_coherent text)).1
    rcases runs_or_exceeds (n := n) hruns with hruns' | ⟨s₀, hruns₀, hexceeds⟩
    · exact absurd (runs_count hruns').le (Nat.not_le.mpr hlevels)
    · exact ⟨_, _, checkBy_of_exceeds hruns₀ hexceeds⟩

/-- **The limit of nesting changes nothing else.** With a greater limit a text has the same verdict; or it is
refused at a token that opens a level, and with the greater limit it is a statement or has a fault behind that
token. What is accepted is accepted with every greater limit. The depth counts the levels that are open, no
level that has been left; and a text is refused for its nesting just if more levels are open at once. -/
theorem limit_neutral {n m : Nat} (hle : n ≤ m) (text : List Char) :
    (checkBy { limit := n } text = checkBy { limit := m } text ∨
      ∃ opener b, OpensIn text opener b ∧
        checkBy { limit := n } text = .error ⟨opener.start, .tooDeep n opener.shown⟩ ∧
        ∀ e, checkBy { limit := m } text = .error e → IsBehind opener e) ∧
    (checkBy { limit := n } text = .ok () → checkBy { limit := m } text = .ok ()) ∧
    (∀ s, Reaches { limit := n } (start text) s → s.Counts n) ∧
    (n < m →
      ((∃ place opener, checkBy { limit := n } text = .error ⟨place, .tooDeep n opener⟩) ↔
        ∃ s, Reaches { limit := m } (start text) s ∧ n < s.levels)) := by
  refine ⟨?_, fun haccept => ?_, fun s hs => ?_, fun hlt => tooDeep_iff_levels hlt text⟩
  · rcases verdict_or_exceeds hle text with hsame | ⟨s, hruns, hexceeds, hdepth⟩
    · exact .inl hsame
    · obtain ⟨rule, next, hplan⟩ := hexceeds.plan
      refine .inr ⟨s.opener, s.cursor, opensIn_of_enter hruns hplan, checkBy_of_exceeds hruns hexceeds, ?_⟩
      intro e hfault
      have hraised : ReflTransGen (Moves (Strategy.limit { limit := m })) (start text) s := runs_raise hruns hle
      exact behind_opener hraised hexceeds.plan hdepth hfault
  · rcases verdict_or_exceeds hle text with hsame | ⟨s, hruns, hexceeds, -⟩
    · rw [← hsame, haccept]
    · rw [checkBy_of_exceeds hruns hexceeds] at haccept
      cases haccept
  · have hcounts : s.bare.Counts n := runs_count (hs.moves (start_coherent text)).1
    exact ⟨hcounts.depth, hcounts.le⟩

theorem limit_neutral_at_second_sign :
    1 ≤ 2 ∧ checkBy { limit := 1 } "row a = --1 b".toList = .error ⟨⟨1, 9⟩, .tooDeep 1 "-"⟩ ∧
      (∃ opener b, OpensIn "row a = --1 b".toList opener b ∧ opener.start = ⟨1, 9⟩ ∧
        ∀ e, checkBy { limit := 2 } "row a = --1 b".toList = .error e → IsBehind opener e) ∧
      ∃ s, Reaches { limit := 2 } (start "row a = --1 b".toList) s ∧ 1 < s.levels := by
  have hless : checkBy { limit := 1 } "row a = --1 b".toList = .error ⟨⟨1, 9⟩, .tooDeep 1 "-"⟩ := by rfl
  have hmore : checkBy { limit := 2 } "row a = --1 b".toList ≠ .error ⟨⟨1, 9⟩, .tooDeep 1 "-"⟩ := by decide
  obtain ⟨hverdicts, -, -, hlevels⟩ := limit_neutral (n := 1) (m := 2) (by decide) "row a = --1 b".toList
  refine ⟨by decide, hless, ?_, (hlevels (by decide)).mp ⟨_, _, hless⟩⟩
  rcases hverdicts with hsame | ⟨opener, b, hopens, hfault, hbehind⟩
  · exact absurd (hsame.symm.trans hless) hmore
  · rw [hless] at hfault
    exact ⟨opener, b, hopens, congrArg SyntaxError.position (Except.error.inj hfault.symm), hbehind⟩

end Esql.Syntax
