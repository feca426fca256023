import Esql.Proofs.Recognizer.Foresight
import Esql.Proofs.Recognizer.Nesting

/-!
# `Proofs.Recognizer.Pipes` — what stands behind a pipe is judged by itself

Behind a statement and a pipe, the verdict on what follows does not depend on the statement, except for the
line of a fault (`check_behind_pipe`). The run on a statement comes to its end in the middle of the plans of its
last command, and leaves them one by one because the text is over. In front of a pipe it leaves them in the same
way: the two are wanted by the same plans (`Plan.sameAtEnd`), and only the pipeline itself tells them apart. There
nothing is left on the stack, no level is open and nothing is expected.

## Contents
- `InPipeline`: a run before the end of its pipeline.
- The end of a text and a pipe in a new line, as seen from behind the last token.
- `runs_behind_pipe`, and `check_behind_pipe`.
-/

namespace Esql.Syntax

open State Look
open Esql.Text (Position)
open Relation (ReflTransGen)

variable {limit : Nat} {s s' y z : State} {a b k k' : Cursor} {text : List Char} {t : Token}

/-! ## Pipelines -/

/-- The plan does the same in front of a pipe as at the end of the text, and goes on with no pipeline. -/
def Plan.sameAtEnd : Plan → Bool
  | look _ wanted _ _ | take _ wanted _ _ | extend _ wanted _ _ =>
    wanted.contains (.kind .pipe) = wanted.contains (.kind .endOfText)
  | call rule _ | jump rule | enter rule _ => rule ≠ .statement && rule ≠ .pipeline
  | _ => true

theorem Rule.same_at_end (rule : Rule) (h : (rule ≠ .statement && rule ≠ .pipeline) = true) :
    rule.plan.all Plan.sameAtEnd = true := by
  revert h
  cases rule <;> decide +kernel

/-- The plans of a statement itself, up to the end of its pipeline. -/
inductive Trunk : Plan → Prop where
  | statement : Trunk Rule.statement.plan
  | jump : Trunk (.jump .pipeline)
  | pipeline : Trunk Rule.pipeline.plan
  | command : Trunk (.call .command (.jump .pipeline))

/-- Frames of a command, below which the pipeline goes on. -/
inductive Below : List Frame → Prop where
  | last {plan} : Trunk plan → Below [.resume plan]
  | resume {plan stack} : plan.all Plan.sameAtEnd = true → Below stack → Below (.resume plan :: stack)
  | leave {stack} : Below stack → Below (.leave :: stack)

/-- The run is in a command, or in the pipeline between two commands. -/
inductive InPipeline (s : State) : Prop where
  | trunk : Trunk s.plan → s.stack = [] → InPipeline s
  | part : s.plan.all Plan.sameAtEnd = true → Below s.stack → InPipeline s

/-- The run has come to the end of a command, and looks for a pipe. -/
structure BetweenCommands (s : State) : Prop where
  plan : s.plan = Rule.pipeline.plan
  stack : s.stack = []

/-- What a pipeline does where no pipe stands. -/
def lastPlan : Plan := .look .expression [.kind .endOfText] .done (.reject .expression [.kind .endOfText])

/-- The pipeline is over: no pipe stood where one was looked for. -/
structure Ended (s : State) : Prop where
  plan : s.plan = lastPlan ∨ (s.plan = .done ∧ Sees .expression [.kind .endOfText] s.cursor) ∨
    s.plan = .reject .expression [.kind .endOfText]
  stack : s.stack = []

theorem Below.ne_nil {stack : List Frame} (h : Below stack) : stack ≠ [] := by
  cases h <;> exact List.cons_ne_nil _ _

theorem BetweenCommands.inPipeline (h : BetweenCommands s) : InPipeline s :=
  .trunk (h.plan ▸ .pipeline) h.stack

theorem InPipeline.not_ended (h : InPipeline s) : ¬ Ended s := by
  rintro ⟨hplan, hstack⟩
  cases h with
  | part _ hbelow => exact hbelow.ne_nil hstack
  | trunk htrunk _ => rcases hplan with hplan | ⟨hplan, -⟩ | hplan <;> rw [hplan] at htrunk <;> cases htrunk

/-- From between two commands a run goes on with a command, or the pipeline is over. -/
theorem BetweenCommands.moves (h : BetweenCommands s) (hmoves : Moves limit s z) :
    InPipeline z ∨ (Ended z ∧ z.cursor = s.cursor) := by
  obtain ⟨hplan, hstack⟩ := h
  cases hmoves with
  | take htake _ _ =>
      cases hplan.symm.trans htake
      exact .inl (.trunk .command hstack)
  | miss htake _ _ =>
      cases hplan.symm.trans htake
      exact .inr ⟨⟨.inl rfl, hstack⟩, rfl⟩
  | resume hother | leave hother | seen hother | unseen hother | extend hother | pass hother | call hother
  | jump hother | opener hother | enter hother | target hother | noTarget hother =>
      cases hplan.symm.trans hother

theorem Moves.inPipeline (h : Moves limit s z) (hs : InPipeline s) :
    InPipeline z ∨ (BetweenCommands s ∧ Ended z ∧ z.cursor = s.cursor) := by
  cases hs with
  | trunk htrunk hstack =>
      generalize hplan : s.plan = plan at htrunk
      cases htrunk with
      | statement =>
          obtain rfl := h.unique (.call hplan)
          rw [hstack]
          exact .inl (.part (Rule.same_at_end .sourceCommand rfl) (.last .jump))
      | command =>
          obtain rfl := h.unique (.call hplan)
          rw [hstack]
          exact .inl (.part (Rule.same_at_end .command rfl) (.last .jump))
      | jump =>
          obtain rfl := h.unique (.jump hplan)
          exact .inl (.trunk .pipeline hstack)
      | pipeline =>
          have hbetween : BetweenCommands s := ⟨hplan, hstack⟩
          exact (hbetween.moves h).imp_right fun hends => ⟨hbetween, hends⟩
  | part hall hbelow =>
      have hself := Plan.all_self hall
      left
      -- Only the last frame of a command leads back to the pipeline; all other moves stay in the command.
      cases h with
      | resume _ hframe =>
          rw [hframe] at hbelow
          cases hbelow with
          | last htrunk => exact .trunk htrunk rfl
          | resume hnext hrest => exact .part hnext hrest
      | leave _ hframe =>
          rw [hframe] at hbelow
          cases hbelow with
          | leave hrest => exact .part rfl hrest
      | seen hplan | unseen hplan | take hplan | miss hplan | extend hplan | pass hplan =>
          simp only [hplan, Plan.all, Bool.and_eq_true] at hall
          exact .part (by simp only [hall]) hbelow
      | opener hplan | target hplan | noTarget hplan =>
          simp only [hplan, Plan.all, Bool.and_eq_true] at hall
          exact .part hall.2 hbelow
      | jump hplan =>
          rw [hplan] at hself
          exact .part (Rule.same_at_end _ hself) hbelow
      | call hplan =>
          simp only [hplan, Plan.all, Bool.and_eq_true] at hall
          rw [hplan] at hself
          exact .part (Rule.same_at_end _ hself) (.resume hall.2 hbelow)
      | enter hplan =>
          simp only [hplan, Plan.all, Bool.and_eq_true] at hall
          rw [hplan] at hself
          exact .part (Rule.same_at_end _ hself) (.leave (.resume hall.2 hbelow))

/-- What is over stays over. -/
theorem Moves.ended (h : Moves limit s z) (hs : Ended s) : Ended z ∧ z.cursor = s.cursor := by
  obtain ⟨hplan, hstack⟩ := hs
  rcases hplan with hplan | ⟨hplan, -⟩ | hplan
  · cases h with
    | seen hlook hnext hamong =>
        cases hplan.symm.trans hlook
        exact ⟨⟨.inr (.inl ⟨rfl, _, hnext, hamong⟩), hstack⟩, rfl⟩
    | unseen hlook =>
        cases hplan.symm.trans hlook
        exact ⟨⟨.inr (.inr rfl), hstack⟩, rfl⟩
    | resume hother | leave hother | take hother | miss hother | extend hother | pass hother | call hother
    | jump hother | opener hother | enter hother | target hother | noTarget hother =>
        cases hplan.symm.trans hother
  · cases h <;> simp_all
  · cases h <;> simp_all

/-- A run is in its pipeline, or it has come to the end of it. -/
theorem runs_inPipeline (h : ReflTransGen (Moves limit) (start text) z) :
    InPipeline z ∨ (Ended z ∧
      ∃ y, ReflTransGen (Moves limit) (start text) y ∧ BetweenCommands y ∧ y.cursor = z.cursor) := by
  induction h with
  | refl => exact .inl (.trunk .statement rfl)
  | @tail x z hruns hmoves ih =>
      rcases ih with hin | ⟨hended, y, hy, hbetween, hcursor⟩
      · refine (hmoves.inPipeline hin).imp_right fun ⟨hbetween, hended, hcursor⟩ => ⟨hended, ?_⟩
        exact ⟨x, hruns, hbetween, hcursor.symm⟩
      · obtain ⟨hended', hstill⟩ := hmoves.ended hended
        exact .inr ⟨hended', y, hy, hbetween, hcursor.trans hstill.symm⟩

/-- Before a state in its pipeline, a run is in its pipeline. -/
theorem not_ended_before (hruns : ReflTransGen (Moves limit) s z) (hz : InPipeline z) : ¬ Ended s := by
  intro hended
  refine hz.not_ended ?_
  clear hz
  induction hruns with
  | refl => exact hended
  | tail _ hmoves ih => exact (hmoves.ended ih).1

/-- The run on a statement looks for another pipe where the text is over. -/
theorem exists_last {strategy : Strategy} (h : checkBy strategy text = .ok ()) :
    ∃ y, ReflTransGen (Moves strategy.limit) (start text) y ∧ BetweenCommands y ∧
      Sees .expression [.kind .endOfText] y.cursor := by
  obtain ⟨z, hruns, hstops⟩ := checkBy_stops strategy text
  rw [h] at hstops
  cases hstops with
  | accept hdone hnil =>
      rcases runs_inPipeline hruns with hin | ⟨hended, y, hy, hbetween, hcursor⟩
      · cases hin with
        | trunk htrunk => rw [hdone] at htrunk; cases htrunk
        | part _ hbelow => exact absurd hnil hbelow.ne_nil
      · rcases hended.plan with hother | ⟨-, hsees⟩ | hother
        · cases hdone.symm.trans hother
        · exact ⟨y, hy, hbetween, hcursor ▸ hsees⟩
        · cases hdone.symm.trans hother

/-! ## In front of a pipe -/

/-- At one place the text is over, at the other a pipe follows. -/
structure PipeForEnd (k k' : Cursor) : Prop where
  last : ∃ t, (∀ mode, k.next mode = .ok t) ∧ t.toSymbol = ⟨.endOfText, none⟩
  pipe : ∃ t', (∀ mode, k'.next mode = .ok t') ∧ t'.toSymbol = ⟨.pipe, none⟩

theorem isAmong_mark {kind : Kind} (hsymbol : t.toSymbol = ⟨kind, none⟩) (hkind : kind ≠ .identifier)
    (wanted : List Terminal) : t.isAmong wanted = wanted.contains (.kind kind) := by
  have haccepts : ∀ u : Terminal, u.accepts t.toSymbol = (Terminal.kind kind == u) := by
    intro u
    rw [hsymbol]
    cases u <;> simp [Terminal.accepts, hkind, Bool.beq_eq_decide_eq]
  simp only [Token.isAmong, haccepts, List.contains_eq_any_beq]

theorem no_target {kind : Kind} (h : a.next .expression = .ok t) (hsymbol : t.toSymbol = ⟨kind, none⟩)
    (hkind : kind ≠ .identifier) (hquoted : kind ≠ .quotedIdentifier) : ¬ Targets a b := by
  intro htargets
  have hamong := htargets.name_sees.isAmong h
  rw [isAmong_mark hsymbol hkind] at hamong
  simp [hquoted] at hamong

/-- Two runs that stand still at these places. -/
def Stay (k k' b b' : Cursor) : Prop := b = k ∧ b' = k'

/-- A plan that goes on alike at the end of the text and in front of a pipe agrees at the two places. -/
theorem PipeForEnd.agrees (h : PipeForEnd k k') {plan : Plan} (hsame : plan.sameAtEnd = true)
    (hspares : plan.sparesEnd = true) : plan.Agrees (Stay k k') (fun _ _ => True) k k' := by
  obtain ⟨⟨t, hnext, hend⟩, t', hnext', hpipe⟩ := h
  have hamong := isAmong_mark hend (by decide)
  have hamong' := isAmong_mark hpipe (by decide)
  cases plan with
  | done | reject | call | jump | enter => trivial
  | opener => exact fun _ _ => ⟨t', hnext' _, trivial⟩
  | look mode wanted yes no =>
      intro t₀ ht₀
      cases (hnext mode).symm.trans ht₀
      refine ⟨t', hnext' mode, ?_⟩
      rw [hamong, hamong']
      exact (of_decide_eq_true hsame).symm
  | take mode wanted yes no | extend mode wanted yes no =>
      intro t₀ ht₀
      cases (hnext mode).symm.trans ht₀
      simp only [Plan.sparesEnd, Bool.not_eq_true'] at hspares
      refine ⟨t', hnext' mode, ?_, fun htaken => ?_⟩
      · rw [hamong, hamong']
        exact (of_decide_eq_true hsame).symm
      · rw [hamong, hspares] at htaken
        cases htaken
  | target next =>
      refine ⟨fun b htargets => absurd htargets (no_target (hnext _) hend (by decide) (by decide)), ?_⟩
      rintro ⟨b', htargets⟩
      exact absurd htargets (no_target (hnext' _) hpipe (by decide) (by decide))

theorem end_everywhere (h : Sees .expression [.kind .endOfText] k) :
    ∃ t, (∀ mode, k.next mode = .ok t) ∧ t.toSymbol = ⟨.endOfText, none⟩ := by
  obtain ⟨t, hnext, hamong⟩ := h
  have hkind : t.kind = .endOfText := by simpa [Token.isAmong, Terminal.accepts] using hamong
  refine ⟨t, next_sharp hnext (by rw [hkind]; rfl), ?_⟩
  have hword : t.keyword = none := by
    refine Option.eq_none_iff_forall_ne_some.mpr fun w hw => ?_
    have hword := isWord_of_keyword hnext hw
    rw [hkind] at hword
    cases hword
  rw [← hkind, ← hword]

/-- Where the text is over, only trivia are left, and a new line ends them. -/
theorem skipTrivia_to_end (h : Sees .expression [.kind .endOfText] k) {w : List Char} (hw : Fresh w) :
    skipTrivia .nothing k.position (k.rest ++ w) = skipTrivia .nothing (k.position.after k.rest) w := by
  obtain ⟨t, hnext, hamong⟩ := h
  have hkind : t.kind = .endOfText := by simpa [Token.isAmong, Terminal.accepts] using hamong
  obtain ⟨gap, hstands⟩ := next_ok hnext
  obtain ⟨gap', v, hrest, hbeyond, -, hskip⟩ := exists_gap k
  -- The trivia end where the text does, so they are all that is left.
  have hall : k.rest = gap := by
    rcases hstands.form with hend | ⟨c, u, -, htext, -, -⟩
    · rw [hstands.text, hend]
      exact List.append_nil gap
    · rw [(kind_eq_endOfText_iff hnext).mp hkind] at htext
      cases htext
  have hplace : k.beyond = k.position.after k.rest := by rw [← hstands.beyond, hstands.start, hall]
  obtain rfl : gap' = k.rest :=
    eq_of_after ⟨v, hrest.symm⟩ (List.prefix_refl _) (hbeyond.symm.trans hplace)
  rw [hskip w hw, hplace]

/-- Behind the end of a text, a pipe in a new line is the next token. -/
theorem pipe_behind_end (h : Sees .expression [.kind .endOfText] k) (c : List Char) (mode : Mode) :
    (Cursor.mk k.position (k.rest ++ '\n' :: '|' :: c)).next mode
      = .ok ⟨⟨.pipe, none⟩, ['|'], (k.position.after k.rest).advance '\n', c⟩ := by
  have hbare : Bare ('|' :: c) := ⟨by simp +decide, rfl⟩
  have hform : lexeme mode '|' c = (some .pipe, 1) := by
    rw [lexeme_sharpChar (by decide)]
    rfl
  unfold Cursor.next
  rw [skipTrivia_to_end h (.inr rfl), skipTrivia_blank (by decide), skipTrivia_bare hbare]
  change (Cursor.mk _ ('|' :: c)).token mode = _
  simp only [Cursor.token, hform]
  rfl

theorem pipe_for_end (h : Sees .expression [.kind .endOfText] k) (c : List Char) :
    PipeForEnd k ⟨k.position, k.rest ++ '\n' :: '|' :: c⟩ :=
  ⟨end_everywhere h, _, pipe_behind_end h c, rfl⟩

/-! ## Behind the pipe -/

/-- Between two commands no pipe stands where the text is over. -/
theorem PipeForEnd.ends (h : PipeForEnd k k') (hs : BetweenCommands s) (hcursor : s.cursor = k)
    (hmoves : Moves limit s z) : Ended z := by
  obtain ⟨⟨t, hnext, hend⟩, -⟩ := h
  have hother : t.isAmong [.kind .pipe] = false := isAmong_mark hend (by decide) _
  obtain rfl := hmoves.unique (.miss hs.plan (hcursor ▸ hnext .expression) hother)
  exact ⟨.inl rfl, hs.stack⟩

/-- Up to where a pipe is looked for, the run does the same at the end of the text and in front of a pipe. -/
theorem runs_to_pipe (h : PipeForEnd k k') (hs : ReflTransGen (Moves limit) (start text) s)
    (hruns : ReflTransGen (Moves limit) s y) (hy : BetweenCommands y)
    (htwins : Twins (Stay k k') (fun _ _ => True) s s') :
    ∃ y', ReflTransGen (Moves limit) s' y' ∧ Twins (Stay k k') (fun _ _ => True) y y' := by
  -- From the front, so that what comes later rules out that the pipeline is over already.
  induction hruns using ReflTransGen.head_induction_on generalizing s' with
  | refl => exact ⟨s', .refl, htwins⟩
  | @head x z hmoves hrest ih =>
      have hz := not_ended_before hrest hy.inPipeline
      have hin := (runs_inPipeline hs).resolve_right fun ⟨hended, _⟩ => hz (hmoves.ended hended).1
      obtain ⟨hcursor, hcursor'⟩ := htwins.cursor
      have hagrees : x.plan.Agrees (Stay k k') (fun _ _ => True) x.cursor s'.cursor := by
        rw [hcursor, hcursor']
        cases hin with
        | part hall _ => exact h.agrees (Plan.all_self hall) (Plan.all_self (runs_all Rule.spares_end hs).plan)
        | trunk htrunk hstack =>
            generalize hplan : x.plan = plan at htrunk
            cases htrunk with
            | statement | jump | command => trivial
            | pipeline => exact absurd (h.ends ⟨hplan, hstack⟩ hcursor hmoves) hz
      obtain ⟨z', hmoves', hz'⟩ := hmoves.twins (runs_open hs) htwins hagrees
      obtain ⟨y', hruns', hy'⟩ := ih (hs.tail hmoves) hz'
      exact ⟨y', hruns'.head hmoves', hy'⟩

/-- Where no name stands, no target does; so nothing has to be known of the place. -/
theorem aims_at_pipe {v w : List Char} (hcursor : s.cursor = k) (h : PipeForEnd k k') (hsplice : Spliced v w k k') :
    Aims v w s k' := by
  obtain ⟨-, t', hnext', hpipe⟩ := h
  have hmark := isAmong_mark hpipe (by decide)
  refine ⟨hcursor ▸ hsplice, fun _ ⟨d, htargets⟩ => ?_, fun _ ⟨d, hgoes⟩ => ?_⟩
  · exact absurd htargets (no_target (hnext' _) hpipe (by decide) (by decide))
  · rcases hgoes with hassign | ⟨_, hdot, -⟩
    · have hamong := hassign.sees.isAmong (hnext' .expression)
      rw [hmark] at hamong
      cases hamong
    · have hamong := hdot.sees.isAmong (hnext' .expression)
      rw [hmark] at hamong
      cases hamong

/-- The state in which the first command behind a pipe is read, with nothing left of what stands before. -/
structure BehindPipe (a : Cursor) (s : State) : Prop where
  cursor : s.cursor = a
  expected : s.expected = []
  depth : s.depth = 0
  plan : s.plan = .call .command (.jump .pipeline)
  stack : s.stack = []

/-- **Nothing leaks across a pipe.** Behind a statement and a pipe in a new line, the run is where it is behind
every other statement. -/
theorem runs_behind_pipe {strategy : Strategy} (h : checkBy strategy text = .ok ()) (c : List Char) :
    ∃ z, ReflTransGen (Moves strategy.limit) (start (text ++ '\n' :: '|' :: c)) z ∧
      BehindPipe ⟨Position.start.after (text ++ ['\n', '|']), c⟩ z := by
  obtain ⟨y, hruns, hbetween, hend⟩ := exists_last h
  have hpipe := pipe_for_end hend c
  have hsplice : Spliced [] ('\n' :: '|' :: c) y.cursor ⟨y.cursor.position, y.cursor.rest ++ '\n' :: '|' :: c⟩ :=
    ⟨y.cursor.rest, (List.append_nil _).symm, rfl, fun _ => rfl⟩
  -- The first state behind the last token, and its twin in front of the pipe.
  obtain ⟨x, hpath, hcursor, hrest⟩ := exists_first (P := (· = y.cursor)) hruns rfl
  have hx : ReflTransGen (Moves strategy.limit) (start text) x := ReflTransGen.mono (fun _ _ => And.left) _ _ hpath
  rw [← List.append_nil text] at hpath
  obtain ⟨x', hruns', htwins⟩ :=
    runs_to_seam (spaced_fresh (.inr rfl)) hpath (aims_at_pipe hcursor hpipe hsplice) (.inl hcursor)
  obtain ⟨hspliced, hexpected, hdepth, hplan, hstack, -⟩ := htwins
  have hcursor' := (hcursor ▸ hspliced).unique hsplice
  -- Both runs stand still until the first looks for a pipe, and the second takes it.
  obtain ⟨y', hpiped, hcursors, -, hdepth', hplan', hstack', -⟩ :=
    runs_to_pipe hpipe hx hrest hbetween ⟨⟨hcursor, hcursor'⟩, hexpected, hdepth, hplan, hstack, .inr trivial⟩
  have htake : Moves strategy.limit y' _ :=
    .take (hplan'.symm.trans hbetween.plan) (hcursors.2 ▸ pipe_behind_end hend c .expression) rfl
  refine ⟨_, (hruns'.trans hpiped).tail htake, ?_, rfl, ?_, rfl, hstack'.symm.trans hbetween.stack⟩
  · obtain ⟨q, htext, hplace⟩ := (runs_viable hruns).isIn
    simp only [Token.finish, htext, hplace, Position.after_append]
    rfl
  · change y'.depth = 0
    rw [← hdepth', (runs_count hruns).depth, levels, hbetween.stack]
    rfl

/-! ## Verdicts behind a pipe -/

/-- The same text, so many lines further down. -/
structure Shifted (lines : Nat) (a b : Cursor) : Prop where
  rest : a.rest = b.rest
  column : a.position.column = b.position.column
  line : a.position.line = b.position.line + lines

theorem shifted_pairing (lines : Nat) : Pairing id (Shifted lines) where
  lower := congrArg Char.toLower
  text := fun h => congrArg (List.map id) h.rest
  advance := by
    rintro p q c d cs ds ⟨hrest, hcolumn, hline⟩
    obtain ⟨rfl, rfl⟩ := List.cons.inj hrest
    simp only at hcolumn hline
    refine ⟨rfl, ?_, ?_⟩ <;> unfold Position.advance <;> split <;> simp only <;> omega

/-- **Pipelines compose.** Behind a statement and a pipe in a new line, what follows has the verdict that it has
behind any other statement: it does not depend on what stands before it, but for the line of a fault. -/
theorem check_behind_pipe {s : String} (h : check s = .ok ()) (c : String) :
    SameVerdict
      (fun e e' => e.message = e'.message ∧ e.position.column = e'.position.column ∧
        e.position.line = e'.position.line + s.toList.count '\n')
      (check (s ++ "\n|" ++ c)) (check ("SHOW INFO\n|" ++ c)) := by
  have hshow : check "SHOW INFO" = .ok () := by rfl
  obtain ⟨z, hruns, hz⟩ := runs_behind_pipe h c.toList
  obtain ⟨z', hruns', hz'⟩ := runs_behind_pipe hshow c.toList
  have htwins : Twins (Level (Shifted (s.toList.count '\n'))) (TokensPair id (Shifted (s.toList.count '\n'))) z z' := by
    refine ⟨.of ?_, hz.expected.trans hz'.expected.symm, hz.depth.trans hz'.depth.symm, hz.plan.trans hz'.plan.symm,
      hz.stack.trans hz'.stack.symm, .inl (by rw [hz.plan]; rfl)⟩
    rw [hz.cursor, hz'.cursor]
    refine ⟨rfl, ?_, ?_⟩
    · simp only [Position.after_append]
      rfl
    · simp only [Position.line_after, List.count_append]
      rw [show "SHOW INFO".toList.count '\n' = 0 by rfl]
      omega
  have hverdicts : SameVerdict _ (checkBy {} _) (checkBy {} _) :=
    htwins.verdicts (shifted_pairing _) (fun _ _ => id) hruns hruns'
  have htext : ∀ u : String, (u ++ "\n|" ++ c).toList = u.toList ++ '\n' :: '|' :: c.toList := by
    intro u
    simp only [String.toList_append, List.append_assoc]
    rfl
  unfold check
  rw [htext s, show "SHOW INFO\n|" ++ c = "SHOW INFO" ++ "\n|" ++ c from rfl, htext]
  refine hverdicts.mono fun e e' halike => ?_
  obtain ⟨a, b, hshifted, ha, hb⟩ := halike.pair.place
  exact ⟨halike.pair.message, by rw [ha, hb, hshifted.column], by rw [ha, hb, hshifted.line]⟩

theorem check_behind_pipe_comment :
    check "FROM logs, \n metrics /* a | pipe */\n| EVAL x = (1 + 2) // no pipe" = .ok () ∧
      SameVerdict
        (fun e e' => e.message = e'.message ∧ e.position.column = e'.position.column ∧
          e.position.line = e'.position.line
            + "FROM logs, \n metrics /* a | pipe */\n| EVAL x = (1 + 2) // no pipe".toList.count '\n')
        (check ("FROM logs, \n metrics /* a | pipe */\n| EVAL x = (1 + 2) // no pipe" ++ "\n|" ++ " WHERE (x"))
        (check ("SHOW INFO\n|" ++ " WHERE (x")) :=
  have h : check "FROM logs, \n metrics /* a | pipe */\n| EVAL x = (1 + 2) // no pipe" = .ok () := by rfl
  ⟨h, check_behind_pipe h _⟩

end Esql.Syntax
