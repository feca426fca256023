import Esql.Proofs.Recognizer.Decides

/-!
# `Proofs.Recognizer.Completion` — every plan can be completed

What a plan has left to read can be written down: a word for each token that it still needs. The words are
found by running through the plans (`Plan.completion`), where a choice is left out if it can be, so that no
level of nesting is entered that need not be. They are written with a blank in front of each, and stand there
as the tokens that they are meant to be (`written_spell`).

## Contents
- `Terminal.sample`: a word for each terminal.
- `Written`: the tokens of a text, one by one.
- `Plan.completion`, and that its tokens are read (`plan_completion`).
- `Config.Open`: configurations whose plans and frames can all be completed.
-/

namespace Esql.Syntax

open State Look
open Esql.Text (Position isBlank)
open Relation (ReflTransGen)

variable {limit : Nat} {a b z : Cursor}

/-! ## Words -/

/-- A word for a terminal. -/
def Terminal.sample : Terminal → List Char
  | kind k =>
    match k with
    | .identifier | .source | .namePattern => ['x']
    | .quotedIdentifier => [backquote, 'x', backquote]
    | .string => ['"', '"']
    | .integer => ['0']
    | .decimal => ['0', '.', '0']
    | .parameter => ['?']
    | .equal => ['=', '=']
    | .notEqual => ['!', '=']
    | .less => ['<']
    | .lessEqual => ['<', '=']
    | .greater => ['>']
    | .greaterEqual => ['>', '=']
    | .equalAnyCase => ['=', '~']
    | .assign => ['=']
    | .plus => ['+']
    | .minus => ['-']
    | .star => ['*']
    | .slash => ['/']
    | .percent => ['%']
    | .cast => [':', ':']
    | .colon => [':']
    | .pipe => ['|']
    | .comma => [',']
    | .dot => ['.']
    | .leftParen => ['(']
    | .rightParen => [')']
    | .leftBracket => ['[']
    | .rightBracket => [']']
    | .leftBrace => ['\x7b']
    | .rightBrace => ['\x7d']
    | .endOfText => []
  | word w => w.spelling.toList
  | name => ['x']

/-- The word of the terminal is a token in this mode for which the terminal stands. -/
def Look.isSampled (l : Look) : Bool :=
  match l.2.sample with
  | [] => false
  | c :: u =>
    !isBlank c && !opensComment (c :: u) &&
      match lexeme l.1 c u with
      | (some kind, n) => n = 1 + u.length && l.2.accepts (.ofText kind (c :: u))
      | (none, _) => false

/-- What a sampled look says of its word. -/
theorem sample_form {l : Look} (h : l.isSampled = true) :
    ∃ c u kind, l.2.sample = c :: u ∧ Bare (c :: u) ∧ lexeme l.1 c u = (some kind, 1 + u.length) ∧
      l.2.accepts (.ofText kind (c :: u)) = true := by
  unfold Look.isSampled at h
  split at h
  · cases h
  · rename_i c u hsample
    simp only [Bool.and_eq_true, Bool.not_eq_true'] at h
    obtain ⟨⟨hblank, hopen⟩, h⟩ := h
    split at h
    · rename_i kind n hform
      simp only [Bool.and_eq_true, decide_eq_true_eq] at h
      obtain ⟨rfl, haccepts⟩ := h
      exact ⟨c, u, kind, hsample, ⟨by simpa using hblank, hopen⟩, hform, haccepts⟩
    · cases h

/-- A word alone is one token. -/
theorem sample_alone {l : Look} (h : l.isSampled = true) :
    ∃ token, (Cursor.start l.2.sample).next l.1 = .ok token ∧ token.text = l.2.sample ∧
      l.2.accepts token.toSymbol = true := by
  obtain ⟨c, u, kind, hsample, hbare, hform, haccepts⟩ := sample_form h
  rw [hsample]
  have hnext := @next_of_form l.1 u Position.start [] [] c kind .done (by simpa using hbare)
    (by simpa using hform)
  simp only [List.nil_append, List.append_nil] at hnext
  exact ⟨_, hnext, rfl, haccepts⟩

/-- A word between blanks is taken. -/
theorem sample_takes {l : Look} (h : l.isSampled = true) {blank : Char} (hblank : isBlank blank = true)
    {w : List Char} (hw : Spaced w) (p : Position) :
    ∃ q, Takes l.1 [l.2] ⟨p, blank :: (l.2.sample ++ w)⟩ ⟨q, w⟩ := by
  obtain ⟨c, u, kind, hsample, hbare, hform, haccepts⟩ := sample_form h
  have hnext := next_word hform hbare hblank hw p
  rw [hsample]
  exact ⟨_, _, hnext, by simpa [Token.isAmong] using haccepts, rfl⟩

/-! ## Written texts -/

/-- The text from `a` to `b` is these tokens. -/
def Written : List Look → Cursor → Cursor → Prop
  | [], a, b => b = a
  | l :: looks, a, b => ∃ c, Takes l.1 [l.2] a c ∧ Written looks c b

theorem written_append {looks others : List Look} :
    Written (looks ++ others) a z ↔ ∃ b, Written looks a b ∧ Written others b z := by
  induction looks generalizing a with
  | nil => simp [Written]
  | cons l looks ih =>
      simp only [List.cons_append, Written, ih]
      constructor
      · rintro ⟨c, htakes, b, hlooks, hothers⟩
        exact ⟨b, ⟨c, htakes, hlooks⟩, hothers⟩
      · rintro ⟨b, ⟨c, htakes, hlooks⟩, hothers⟩
        exact ⟨c, htakes, b, hlooks, hothers⟩

/-- The words of the tokens, each with a blank behind it. -/
def spell (looks : List Look) : List Char := looks.flatMap fun l => l.2.sample ++ [' ']

theorem end_of_blank {blank : Char} (hblank : isBlank blank = true) (p : Position) :
    Sees .expression [.kind .endOfText] ⟨p, [blank]⟩ := by
  refine ⟨Token.endOfText (p.advance blank), ?_, rfl⟩
  unfold Cursor.next
  dsimp only
  rw [skipTrivia_blank hblank, skipTrivia_bare bare_nil]
  rfl

/-- The words of some tokens, behind a blank, are these tokens up to the end of the text. -/
theorem written_spell {looks : List Look} (h : looks.all Look.isSampled = true) {blank : Char}
    (hblank : isBlank blank = true) (p : Position) :
    ∃ z, Written looks ⟨p, blank :: spell looks⟩ z ∧ Sees .expression [.kind .endOfText] z := by
  induction looks generalizing blank p with
  | nil => exact ⟨_, rfl, end_of_blank hblank p⟩
  | cons l looks ih =>
      simp only [List.all_cons, Bool.and_eq_true] at h
      have hspaced : Spaced (' ' :: spell looks) := by
        rintro c ⟨⟩
        decide
      obtain ⟨q, htakes⟩ := sample_takes h.1 hblank hspaced p
      obtain ⟨z, hwritten, hend⟩ := @ih h.2 ' ' (by decide) q
      refine ⟨z, ⟨_, ?_, hwritten⟩, hend⟩
      simpa [spell] using htakes

/-- Where the same tokens are next, the same tokens are written. -/
theorem written_congr {looks : List Look} (hnext : ∀ mode, a.next mode = b.next mode)
    (h : ∃ z, Written looks b z ∧ Sees .expression [.kind .endOfText] z) :
    ∃ z, Written looks a z ∧ Sees .expression [.kind .endOfText] z := by
  obtain ⟨z, hwritten, hend⟩ := h
  cases looks with
  | nil =>
      obtain rfl : z = b := hwritten
      obtain ⟨token, htoken, hamong⟩ := hend
      exact ⟨a, rfl, token, (hnext _).trans htoken, hamong⟩
  | cons l looks =>
      obtain ⟨c, ⟨token, htoken, hamong, hfinish⟩, hlooks⟩ := hwritten
      exact ⟨z, ⟨c, ⟨token, (hnext _).trans htoken, hamong, hfinish⟩, hlooks⟩, hend⟩

/-! ## Completions -/

/-- The end of the text is behind what the plan reads. -/
def Plan.isLast : Plan → Bool
  | done | reject .. => false
  | look _ _ yes no | take _ _ yes no | extend _ _ yes no => yes.isLast || no.isLast
  | call _ next | opener next | enter _ next | target next => next.isLast
  | jump rule => rule.isLast

/-- Tokens that the plan reads, given some for each rule; what is optional is left out. A plan that enters a
level of nesting at once is completed only where that is allowed, if it is `deep`. -/
def Plan.completion (rules : Rule → Option (List Look)) (deep : Bool) : Plan → Option (List Look)
  | done => some []
  | reject .. => none
  | look mode wanted yes no =>
    match no.completion rules deep, yes.completion rules deep with
    | some looks, _ => some looks
    | none, some (l :: looks) => if (looksFor mode wanted).contains l then some (l :: looks) else none
    | none, _ => none
  | take mode wanted yes no | extend mode wanted yes no =>
    match no.completion rules deep, looksFor mode wanted, yes.completion rules deep with
    | some looks, _, _ => some looks
    | none, l :: _, some looks => some (l :: looks)
    | none, _, _ => none
  | call rule next =>
    match rules rule, next.completion rules deep with
    | some looks, some others => if rule.isLast then none else some (looks ++ others)
    | _, _ => none
  | jump rule => rules rule
  | opener next | target next => next.completion rules deep
  | enter rule next =>
    match rules rule, next.completion rules deep with
    | some looks, some others => if deep && !rule.isLast then some (looks ++ others) else none
    | _, _ => none

/-- Tokens that a rule reads, found within so many rules of each other. -/
def Rule.completion : Nat → Rule → Option (List Look)
  | 0, _ => none
  | _ + 1, pipeline => some []
  | n + 1, rule => rule.plan.completion (completion n) false

theorem Takes.of_mem {mode : Mode} {wanted : List Terminal} {l : Look} (h : Takes l.1 [l.2] a b)
    (hl : l ∈ looksFor mode wanted) : Takes mode wanted a b := by
  obtain ⟨t, ht, rfl⟩ := List.mem_map.mp hl
  obtain ⟨token, hnext, hamong, hfinish⟩ := h
  refine ⟨token, hnext, isAmong_mono ?_ hamong, hfinish⟩
  rintro u hu
  obtain rfl := List.mem_singleton.mp hu
  exact ht

/-- What is written is read, if the end of the text follows where it has to. -/
def Completes (looks : List Look) (last : Bool) (reads : Cursor → Cursor → Prop) : Prop :=
  ∀ a b, Written looks a b → (last = true → Sees .expression [.kind .endOfText] b) → reads a b

theorem plan_completion {n : Nat} {rules : Rule → Option (List Look)} {deep : Bool}
    (hdeep : deep = true → 0 < n)
    (hrules : ∀ m rule looks, rules rule = some looks → Completes looks rule.isLast (rule.Reads m))
    {plan : Plan} {looks : List Look} (h : plan.completion rules deep = some looks) :
    Completes looks plan.isLast (plan.Reads n) := by
  induction plan generalizing looks with
  | done =>
      cases h
      intro a b hwritten _
      exact hwritten
  | reject => cases h
  | look mode wanted yes no ihyes ihno =>
      intro a b hwritten hend
      simp only [Plan.isLast, Bool.or_eq_true] at hend
      simp only [Plan.completion] at h
      split at h
      · rename_i hno
        cases h
        exact .inr (ihno hno a b hwritten fun hl => hend (.inr hl))
      · rename_i l others _ hyes
        split at h
        · rename_i hcontains
          cases h
          obtain ⟨c, htakes, -⟩ := id hwritten
          have hsees : SeesAny (looksFor mode wanted) a :=
            ⟨l, List.contains_iff_mem.mp hcontains, htakes.sees⟩
          exact .inl ⟨sees_iff.mpr hsees, ihyes hyes a b hwritten fun hl => hend (.inl hl)⟩
        · cases h
      · cases h
  | take mode wanted yes no ihyes ihno | extend mode wanted yes no ihyes ihno =>
      intro a b hwritten hend
      simp only [Plan.isLast, Bool.or_eq_true] at hend
      simp only [Plan.completion] at h
      split at h
      · rename_i hno
        cases h
        exact .inr (ihno hno a b hwritten fun hl => hend (.inr hl))
      · rename_i l _ others _ hlooks hyes
        cases h
        obtain ⟨c, htakes, hothers⟩ := hwritten
        have hl : l ∈ looksFor mode wanted := by
          rw [hlooks]
          exact .head _
        exact .inl ⟨c, htakes.of_mem hl, ihyes hyes c b hothers fun hl => hend (.inl hl)⟩
      · cases h
  | call rule next ih =>
      intro a b hwritten hend
      simp only [Plan.completion] at h
      split at h
      · rename_i looks others hrule hnext
        split at h
        · cases h
        · rename_i hlast
          cases h
          obtain ⟨c, hlooks, hothers⟩ := written_append.mp hwritten
          exact ⟨c, hrules n rule looks hrule a c hlooks fun hl => absurd hl hlast, ih hnext c b hothers hend⟩
      · cases h
  | jump rule => exact hrules n rule looks h
  | opener next ih => exact ih h
  | enter rule next ih =>
      intro a b hwritten hend
      simp only [Plan.completion] at h
      split at h
      · rename_i looks others hrule hnext
        split at h
        · rename_i hguard
          cases h
          simp only [Bool.and_eq_true, Bool.not_eq_true'] at hguard
          obtain ⟨m, rfl⟩ : ∃ m, n = m + 1 := ⟨n - 1, by have := hdeep hguard.1; omega⟩
          obtain ⟨c, hlooks, hothers⟩ := written_append.mp hwritten
          have hlast : rule.isLast = true → Sees .expression [.kind .endOfText] c := by
            rw [hguard.2]
            intro hl
            cases hl
          exact ⟨m, c, rfl, hrules m rule looks hrule a c hlooks hlast, ih hnext c b hothers hend⟩
        · cases h
      · cases h
  | target next ih =>
      intro a b hwritten hend
      exact .inr (ih h a b hwritten hend)

theorem Rule.isLast_plan (rule : Rule) (h : rule.plan.isLast = true) : rule.isLast = true := by
  cases rule <;> revert h <;> decide

theorem rule_completion {n m : Nat} {rule : Rule} {looks : List Look} (h : rule.completion n = some looks) :
    Completes looks rule.isLast (rule.Reads m) := by
  induction n generalizing m rule looks with
  | zero => cases h
  | succ n ih =>
      by_cases hpipeline : rule = .pipeline
      · subst hpipeline
        cases h
        rintro a b rfl hend
        exact Rule.reads_of_plan .pipeline (.inr (.inl ⟨hend rfl, rfl⟩))
      · have hplan : rule.plan.completion (Rule.completion n) false = some looks := by
          rw [← h, Rule.completion]
          exact hpipeline
        intro a b hwritten hend
        refine rule.reads_of_plan ?_
        have hreads := @plan_completion m _ false (fun h => absurd h Bool.false_ne_true) (fun _ _ _ => ih) _ _ hplan
        exact hreads a b hwritten fun hl => hend (rule.isLast_plan hl)

/-- The plan has a completion all of whose tokens can be written. -/
def Plan.completes (deep : Bool) (plan : Plan) : Bool :=
  (plan.completion (Rule.completion 16) deep).any (·.all Look.isSampled)

theorem exists_completion {n : Nat} {deep : Bool} (hdeep : deep = true → 0 < n) {plan : Plan}
    (h : plan.completes deep = true) :
    ∃ looks : List Look, looks.all Look.isSampled = true ∧ Completes looks plan.isLast (plan.Reads n) := by
  obtain ⟨looks, hlooks, hsampled⟩ := (Option.any_eq_true _ _).mp h
  exact ⟨looks, hsampled, plan_completion hdeep (fun _ _ _ => rule_completion) hlooks⟩

/-! ## Configurations that can be completed -/

def Plan.isEnter : Plan → Bool
  | enter .. => true
  | _ => false

/-- No level of nesting is entered before an opener is remembered. -/
def Plan.guarded : Plan → Bool
  | done | reject .. | jump _ | opener _ => true
  | look _ _ yes no | take _ _ yes no | extend _ _ yes no => yes.guarded && no.guarded
  | call _ next | target next => next.guarded
  | enter .. => false

/-- What goes on behind a token, or waits for a phrase, can be completed. -/
def Plan.goesOn : Plan → Bool
  | take _ _ yes _ | extend _ _ yes _ => yes.completes false || (yes.isEnter && yes.completes true)
  | call rule next | enter rule next => !rule.isLast && next.completes false && next.guarded
  | target next => next.completes false
  | _ => true

theorem Rule.goes_on (rule : Rule) : rule.plan.all Plan.goesOn = true := by
  cases rule <;> decide +kernel

/-- Every frame can be completed, and the end of the text is wanted by the last frame at most. -/
def stackOpen : List Frame → Prop
  | [] => True
  | .resume plan :: stack =>
    plan.completes false = true ∧ plan.guarded = true ∧ (plan.isLast = true → stack = []) ∧ stackOpen stack
  | .leave :: stack => stackOpen stack

/-- What waits in a state can be completed. -/
structure State.Open (s : State) : Prop where
  all : s.All Plan.goesOn
  last : s.plan.isLast = true → s.stack = []
  stack : stackOpen s.stack

theorem start_open (text : List Char) : (start text).Open :=
  ⟨start_all Rule.goes_on text, fun _ => rfl, trivial⟩

theorem Moves.open {s s' : State} (h : Moves limit s s') (hs : s.Open) : s'.Open := by
  have hall := h.all Rule.goes_on hs.all
  obtain ⟨⟨hplan, -⟩, hlast, hstack⟩ := hs
  have hgoes := Plan.all_self hplan
  cases h with
  | resume hdone hframe =>
      rw [hframe] at hstack
      exact ⟨hall, hstack.2.2.1, hstack.2.2.2⟩
  | leave hdone hframe =>
      rw [hframe] at hstack
      exact ⟨hall, fun h => (Bool.false_ne_true h).elim, hstack⟩
  | seen hp _ _ | unseen hp _ _ | take hp _ _ | miss hp _ _ | extend hp _ _ | pass hp _ _ =>
      rw [hp] at hlast
      exact ⟨hall, fun h => hlast (by simp [Plan.isLast, show Plan.isLast _ = true from h]), hstack⟩
  | opener hp _ | target hp _ | noTarget hp _ =>
      rw [hp] at hlast
      exact ⟨hall, hlast, hstack⟩
  | @jump rule hp =>
      rw [hp] at hlast
      exact ⟨hall, fun h => hlast (rule.isLast_plan h), hstack⟩
  | @call rule next hp | @enter rule next hp _ =>
      rw [hp] at hgoes hlast
      simp only [Plan.goesOn, Bool.and_eq_true, Bool.not_eq_true'] at hgoes
      obtain ⟨⟨hrule, hcompletes⟩, hguarded⟩ := hgoes
      refine ⟨hall, fun h => ?_, hcompletes, hguarded, hlast, hstack⟩
      rw [rule.isLast_plan h] at hrule
      cases hrule

theorem runs_open {text : List Char} {s : State} (h : ReflTransGen (Moves limit) (start text) s) : s.Open := by
  induction h with
  | refl => exact start_open text
  | tail _ hmoves ih => exact hmoves.open ih

/-- Behind some tokens there are tokens that can be written, so that all are read up to the end of the text. -/
def Completable (head : List Look) (reads : Cursor → Cursor → Prop) : Prop :=
  ∃ looks : List Look, looks.all Look.isSampled = true ∧
    ∀ a z, Written (head ++ looks) a z → Sees .expression [.kind .endOfText] z → reads a z

/-- A plan and the frames below it are completed one after the other. -/
theorem completable_then {head : List Look} {depth : Nat} {plan : Plan} {stack : List Frame}
    (hplan : ∃ looks : List Look, looks.all Look.isSampled = true ∧
      Completes (head ++ looks) plan.isLast (plan.Reads (limit - depth)))
    (hlast : plan.isLast = true → stack = []) (hstack : Completable [] (stackReads limit depth stack)) :
    Completable head (Config.Reads limit ⟨depth, plan, stack⟩) := by
  obtain ⟨looks, hsampled, hreads⟩ := hplan
  by_cases hl : plan.isLast = true
  · obtain rfl := hlast hl
    exact ⟨looks, hsampled, fun a z hwritten hend => ⟨z, hreads a z hwritten fun _ => hend, rfl⟩⟩
  · obtain ⟨others, hsampled', hrest⟩ := hstack
    refine ⟨looks ++ others, by rw [List.all_append, hsampled, hsampled']; rfl, ?_⟩
    intro a z hwritten hend
    rw [← List.append_assoc] at hwritten
    obtain ⟨b, hlooks, hothers⟩ := written_append.mp hwritten
    exact ⟨b, hreads a b hlooks fun h => absurd h hl, hrest b z hothers hend⟩

theorem stack_completable {stack : List Frame} (h : stackOpen stack) (depth : Nat) :
    Completable [] (stackReads limit depth stack) := by
  induction stack generalizing depth with
  | nil => exact ⟨[], rfl, fun a z hwritten _ => hwritten⟩
  | cons frame stack ih =>
      cases frame with
      | leave => exact ih h (depth - 1)
      | resume plan =>
          obtain ⟨hcompletes, -, hlast, hstack⟩ := h
          have hplan := @exists_completion (limit - depth) false (fun h => absurd h Bool.false_ne_true) plan hcompletes
          exact completable_then hplan hlast (ih hstack depth)

/-- **What is left to read can be completed**, if the plan at hand can be. -/
theorem config_completable {c : Config} {deep : Bool} (hlast : c.plan.isLast = true → c.stack = [])
    (hstack : stackOpen c.stack) (hplan : c.plan.completes deep = true)
    (hdeep : deep = true → c.depth < limit) : Completable [] (c.Reads limit) :=
  completable_then (exists_completion (fun h => Nat.sub_pos_of_lt (hdeep h)) hplan) hlast
    (stack_completable hstack c.depth)

end Esql.Syntax
