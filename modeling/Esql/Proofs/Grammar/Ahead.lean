import Esql.Proofs.Grammar.Unfolding
import Esql.Proofs.Grammar.Weight

/-!
# `Proofs.Grammar.Ahead` — one token is enough to decide

Where a plan has a choice, the next token decides it. This module says what the next token may be: what may
come first in a plan (`Plan.asks`), what may follow a rule (`Rule.follow`), and that in every plan what is
wanted at a choice is none of what may come if the choice goes the other way (`Plan.fits`). The plans are
data, so that is checked by running through the rules (`Rule.fits`).

Two things make it more than a table of first and following tokens. The text is cut into tokens in three ways,
so what is seen in one mode has to say what is there in another (`Look.inMode`). And some tokens are asked for
silently, without being noted as expected; what is noted is a list of its own, since behind a look only what
was looked for may be noted.

## Contents
- `Look`, and what a look in one mode says of another mode.
- `Rule.mayEnd`, `Rule.asks`, `Rule.follow` and the same of plans.
- `Plan.fits` and `Rule.fits`.
- `Plan.Reads.first`: a text that a plan reads begins as the plan asks.
-/

namespace Esql.Syntax

variable {n : Nat} {a b : Cursor}

/-! ## Looks -/

/-- What the next token is, read in a mode. -/
abbrev Look := Mode × Terminal

/-- The next token is what one of the looks says. -/
def SeesAny (looks : List Look) (a : Cursor) : Prop := ∃ l ∈ looks, Sees l.1 [l.2] a

/-- Looks at one token in one mode. -/
def looksFor (mode : Mode) (wanted : List Terminal) : List Look := wanted.map (mode, ·)

namespace Look

/-- What a look in one mode says of the token that is read in another mode. -/
def inMode (l : Look) (mode : Mode) : Option Terminal :=
  if l.1 = mode then some l.2
  else
    match l.2 with
    | .kind k => if k.isSharp then some (.kind k) else none
    | .word _ | .name => if mode = .source then some (.kind .source) else none

/-- Where the look is right, there is a token in the mode, and it is none of these. -/
def excludes (l : Look) (mode : Mode) (wanted : List Terminal) : Bool :=
  (l.inMode mode).any fun t => wanted.all t.excludes

end Look

theorem sees_single_iff {mode : Mode} {t : Terminal} :
    Sees mode [t] a ↔ ∃ token, a.next mode = .ok token ∧ t.accepts token.toSymbol = true := by
  simp [Sees, Token.isAmong]

theorem sees_iff {mode : Mode} {wanted : List Terminal} :
    Sees mode wanted a ↔ SeesAny (looksFor mode wanted) a := by
  simp [Sees, SeesAny, looksFor, Token.isAmong]
  grind

theorem SeesAny.mono {looks others : List Look} (hsub : looks ⊆ others) (h : SeesAny looks a) :
    SeesAny others a := by
  obtain ⟨l, hl, hsees⟩ := h
  exact ⟨l, hsub hl, hsees⟩

theorem inMode_sound {l : Look} {mode : Mode} {t : Terminal} (h : Sees l.1 [l.2] a)
    (hmode : l.inMode mode = some t) : Sees mode [t] a := by
  obtain ⟨m, u⟩ := l
  obtain ⟨token, hnext, haccepts⟩ := sees_single_iff.mp h
  unfold Look.inMode at hmode
  by_cases hm : m = mode
  · subst hm
    rw [if_pos rfl] at hmode
    cases hmode
    exact h
  rw [if_neg hm] at hmode
  -- A word is an index pattern when it is read as one.
  have hword : token.kind.isWord = true → Sees .source [.kind .source] a := by
    intro hkind
    obtain ⟨token', hnext', hsource⟩ := next_source_of_word hnext hkind
    exact sees_single_iff.mpr ⟨token', hnext', by simp [Terminal.accepts, hsource]⟩
  cases u with
  | kind k =>
      obtain rfl : token.kind = k := by simpa [Terminal.accepts] using haccepts
      by_cases hsharp : token.kind.isSharp = true
      · simp only [hsharp, if_true, Option.some.injEq] at hmode
        subst hmode
        exact sees_single_iff.mpr ⟨token, next_sharp hnext hsharp mode, haccepts⟩
      · simp [hsharp] at hmode
  | word w =>
      by_cases hsource : mode = .source
      · simp only [hsource, if_true, Option.some.injEq] at hmode
        rw [hsource, ← hmode]
        exact hword (isWord_of_keyword hnext (w := w) (by simpa [Terminal.accepts] using haccepts))
      · simp [hsource] at hmode
  | name =>
      by_cases hsource : mode = .source
      · simp only [hsource, if_true, Option.some.injEq] at hmode
        rw [hsource, ← hmode]
        simp only [Terminal.accepts, Bool.and_eq_true, decide_eq_true_eq] at haccepts
        exact hword (by rw [haccepts.1]; rfl)
      · simp [hsource] at hmode

theorem excludes_sees {l : Look} {mode : Mode} {wanted : List Terminal} (h : Sees l.1 [l.2] a)
    (hexcludes : l.excludes mode wanted = true) :
    ∃ token, a.next mode = .ok token ∧ token.isAmong wanted = false := by
  unfold Look.excludes at hexcludes
  obtain ⟨t, hmode, hall⟩ := (Option.any_eq_true _ _).mp hexcludes
  obtain ⟨token, hnext, haccepts⟩ := sees_single_iff.mp (inMode_sound h hmode)
  refine ⟨token, hnext, List.any_eq_false.mpr fun u hu haccepts' => ?_⟩
  have hfalse := excludes_sound hnext haccepts haccepts'
  rw [List.all_eq_true.mp hall u hu] at hfalse
  cases hfalse

/-! ## What may come first -/

namespace Look

/-- Looks in the mode of expressions. -/
def expressions (wanted : List Terminal) : List Look := looksFor .expression wanted

def names : List Look := expressions [.name, .kind .quotedIdentifier]

def signs : List Look := expressions [.kind .minus, .kind .plus]

def ofLiteral : List Look := expressions literals

def ofPrimary : List Look := expressions [.kind .leftParen] ++ ofLiteral ++ names

def ofUnary : List Look := signs ++ ofPrimary

def ofNegation : List Look := expressions [.word .NOT] ++ ofUnary

def ofPattern : List Look :=
  looksFor .pattern [.kind .namePattern, .kind .quotedIdentifier, .kind .parameter]

end Look

open Look

namespace Rule

/-- A phrase of the rule may be without a token. -/
def mayEnd : Rule → Bool
  | pipeline | metadata | indexSelector | grouping | renameList | nullsOrder | sortKeys | grokPatterns
  | enrichKey | enrichFields | enrichFieldList | changePointOutput | qualifiedTail | casts => true
  | _ => false

/-- What a rule may ask of the next token before it has taken one; all of it, or what it notes if it does not
find it. -/
def asks (all : Bool) : Rule → List Look
  | statement | sourceCommand => expressions [.word .FROM, .word .ROW, .word .SHOW]
  | pipeline => expressions [.kind .pipe, .kind .endOfText]
  | command => expressions (commands.map fun c => .word c.1)
  | indexList | indexPattern => looksFor .source [.kind .string, .kind .source]
  | metadata => looksFor .source [.word .METADATA]
  | metadataFields => looksFor .source [.kind .source]
  | indexSelector => looksFor .source [.kind .cast]
  | aggregates | aggregate | fields | field | boolean | conjunction | negation | sortKey | parenthesized =>
    ofNegation
  | grouping => expressions [.word .BY]
  | renameField | enrichField | namePatterns | namePattern => ofPattern
  | renameList | enrichFieldList => looksFor .pattern [.kind .comma]
  | nullsOrder => expressions [.word .NULLS, .kind .comma]
  | sortKeys | grokPatterns => expressions [.kind .comma]
  | dissectOption | qualifiedNames | qualifiedName | identifier => names
  | enrichKey => looksFor .pattern [.word .ON, .word .WITH]
  | enrichFields => looksFor .pattern [.word .WITH]
  | changePointOutput => expressions [.word .AS]
  | qualifiedTail => expressions [.kind .dot]
  | predicate | comparison | additive | multiplicative | unary | inItems => ofUnary
  | likePatterns => expressions [.kind .string, .kind .parameter, .kind .leftParen]
  | likeList | entryList | strings => expressions [.kind .string]
  | inList => expressions [.kind .leftParen]
  | casts => expressions [.kind .cast]
  | primary => ofPrimary
  | arguments => expressions [.kind .rightParen, .kind .star, .kind .leftBrace] ++ ofNegation
  | argumentList => expressions [.kind .leftBrace] ++ ofNegation
  | entries => expressions [.kind .rightBrace, .kind .string]
  | constant => if all then signs ++ ofLiteral else ofLiteral
  | array => signs ++ expressions [.kind .integer, .kind .decimal, .kind .string, .word .TRUE, .word .FALSE]
  | numbers => signs ++ expressions [.kind .integer, .kind .decimal]
  | numberValue => expressions [.kind .integer, .kind .decimal]
  | numberList | booleanList => expressions [.kind .comma, .kind .rightBracket]
  | booleans => expressions [.word .TRUE, .word .FALSE]

end Rule

namespace Plan

/-- What the plan reads may be without a token. -/
def mayEnd : Plan → Bool
  | done => true
  | reject .. => false
  | look _ _ yes no => yes.mayEnd || no.mayEnd
  | take _ _ _ no | extend _ _ _ no => no.mayEnd
  | call rule next | enter rule next => rule.mayEnd && next.mayEnd
  | jump rule => rule.mayEnd
  | opener next | target next => next.mayEnd

/-- What a plan may ask of the next token before it has taken one. -/
def asks (all : Bool) : Plan → List Look
  | done => []
  | reject mode wanted => if all then [] else looksFor mode wanted
  | look mode wanted _ no | take mode wanted _ no => looksFor mode wanted ++ no.asks all
  | extend mode wanted _ no => (if all then looksFor mode wanted else []) ++ no.asks all
  | call rule next | enter rule next => rule.asks all ++ if rule.mayEnd then next.asks all else []
  | jump rule => rule.asks all
  | opener next => next.asks all
  | target next => (if all then names else []) ++ next.asks all

/-- The same, where `rest` is asked behind the plan. -/
def asksBefore (all : Bool) (plan : Plan) (rest : List Look) : List Look :=
  plan.asks all ++ if plan.mayEnd then rest else []

end Plan

/-! ## What may follow -/

namespace Look

def afterCommand : List Look := expressions [.kind .pipe, .kind .endOfText]

def afterBoolean : List Look :=
  afterCommand ++
    expressions
      [.kind .comma, .word .WHERE, .word .BY, .word .ASC, .word .DESC, .word .NULLS, .kind .rightParen]

def afterConjunction : List Look := expressions [.word .OR] ++ afterBoolean

def afterNegation : List Look := expressions [.word .AND] ++ afterConjunction

def afterComparison : List Look :=
  expressions [.word .NOT, .word .LIKE, .word .RLIKE, .word .IN, .word .IS, .kind .colon] ++ afterNegation

def afterAdditive : List Look :=
  expressions
    [.kind .equal, .kind .notEqual, .kind .less, .kind .lessEqual, .kind .greater, .kind .greaterEqual,
     .kind .equalAnyCase] ++ afterComparison

def afterMultiplicative : List Look := signs ++ afterAdditive

def afterUnary : List Look := expressions [.kind .star, .kind .slash, .kind .percent] ++ afterMultiplicative

def afterPrimary : List Look := expressions [.kind .cast, .kind .string] ++ afterUnary

def afterConstant : List Look := expressions [.kind .rightBrace] ++ afterPrimary

def afterName : List Look := expressions [.word .ON, .word .AS] ++ afterPrimary

def afterIdentifier : List Look := expressions [.kind .dot, .kind .assign] ++ afterName

def afterPattern : List Look :=
  looksFor .pattern [.kind .comma, .word .AS, .kind .assign, .word .WITH] ++ afterCommand

def afterIndexPattern : List Look :=
  looksFor .source [.kind .comma, .word .METADATA] ++ expressions [.word .ON] ++ afterCommand

end Look

/-- What may be asked behind a phrase of the rule. -/
def Rule.follow : Rule → List Look
  | statement | pipeline => expressions [.kind .endOfText]
  | sourceCommand | command | indexList | metadata | metadataFields | aggregates | grouping | renameField
  | renameList | sortKey | nullsOrder | sortKeys | dissectOption | grokPatterns | enrichKey | enrichFields
  | enrichField | enrichFieldList | changePointOutput | fields | qualifiedNames | namePatterns => afterCommand
  | indexPattern | indexSelector => afterIndexPattern
  | aggregate => afterCommand ++ expressions [.kind .comma, .word .BY]
  | field => afterCommand ++ expressions [.kind .comma, .word .WHERE, .word .BY]
  | qualifiedName => expressions [.kind .comma, .word .ON, .word .AS] ++ afterCommand
  | qualifiedTail => afterName
  | identifier => afterIdentifier
  | namePattern => afterPattern
  | boolean => afterBoolean
  | conjunction => afterConjunction
  | negation | predicate | likePatterns | likeList | inList | inItems => afterNegation
  | comparison => afterComparison
  | additive => afterAdditive
  | multiplicative => afterMultiplicative
  | unary | casts => afterUnary
  | primary | parenthesized | arguments | argumentList => afterPrimary
  | entries | entryList => expressions [.kind .rightParen]
  | constant | array | numbers | numberValue | numberList | booleans | booleanList | strings => afterConstant

/-- The looks are all among others. -/
def among (looks others : List Look) : Bool := looks.all (others.contains ·)

/-- What is wanted at each choice of the plan is none of what may come if the choice goes the other way, where
`rest` may be asked behind the plan, and `noted` of it noted. -/
def Plan.fits (rest noted : List Look) : Plan → Bool
  | done | reject .. => true
  | look mode wanted yes no =>
    yes.fits rest noted && no.fits rest noted && (no.asksBefore true rest).all (·.excludes mode wanted) &&
      (yes.asksBefore true rest).all (·.1 = mode) &&
      among (yes.asksBefore false noted) (looksFor mode wanted)
  | take mode wanted yes no | extend mode wanted yes no =>
    yes.fits rest noted && no.fits rest noted && (no.asksBefore true rest).all (·.excludes mode wanted)
  | call rule next | enter rule next =>
    next.fits rest noted && among (next.asksBefore true rest) rule.follow &&
      among (next.asksBefore false noted) rule.follow
  | jump rule => among rest rule.follow && among noted rule.follow
  | opener next =>
    next.fits rest noted && (next.asksBefore true rest).all fun l => (l.inMode .expression).isSome
  | target next =>
    next.fits rest noted && rest.all (·.excludes .expression [.kind .dot, .kind .assign]) &&
      match next with
      | jump .boolean => true
      | _ => false

/-- **Every rule is decided by one token.** -/
theorem Rule.fits (rule : Rule) : rule.plan.fits rule.follow rule.follow = true := by
  cases rule <;> decide +kernel

/-! ## How a text begins that a plan reads -/

theorem subset_of_among {looks others : List Look} (h : among looks others = true) : looks ⊆ others := by
  intro l hl
  exact List.contains_iff_mem.mp (List.all_eq_true.mp h l hl)

theorem Rule.asks_plan (all : Bool) (rule : Rule) : rule.plan.asks all ⊆ rule.asks all := by
  refine subset_of_among ?_
  cases all <;> cases rule <;> decide +kernel

theorem Rule.mayEnd_plan (rule : Rule) (h : rule.plan.mayEnd = true) : rule.mayEnd = true := by
  cases rule <;> revert h <;> decide

theorem command_sees (h : Derives n (.part .command) a b) : SeesAny (Rule.command.asks true) a := by
  refine sees_iff.mp ?_
  simp [derives_part_iff .command a, Category.production] at h
  rcases h with ⟨c, h, -⟩ | ⟨c, h, -⟩ | ⟨c, h, -⟩ | ⟨c, h, -⟩ | ⟨c, h, -⟩ | ⟨c, h, -⟩ | ⟨c, h, -⟩ | ⟨c, h, -⟩ |
    ⟨c, h, -⟩ | ⟨c, h, -⟩ | ⟨c, h, -⟩ | ⟨c, h, -⟩ | ⟨c, h, -⟩ | ⟨c, h, -⟩ | ⟨c, h, -⟩ | ⟨c, h, -⟩
  all_goals exact h.sees.mono (by decide)

theorem name_sees (h : Derives n (.part .name) a b) : SeesAny names a := by
  simp [derives_part_iff .name a, Category.production, derives_list_iff a,
    derives_production_both_iff .identifier] at h
  obtain ⟨c, h, -⟩ := h
  exact sees_iff.mp h.sees

/-- What a plan reads begins as the plan asks, or is nothing. -/
def Plan.Begins (plan : Plan) : Prop :=
  ∀ n a b, plan.Reads n a b → SeesAny (plan.asks true) a ∨ (plan.mayEnd = true ∧ b = a)

theorem rule_begins {rule : Rule} (hplan : rule.plan.Begins) (h : rule.Reads n a b) :
    SeesAny (rule.asks true) a ∨ (rule.mayEnd = true ∧ b = a) := by
  by_cases hcommand : rule = .command
  · subst hcommand
    exact .inl (command_sees h.1)
  · refine (hplan n a b (rule.plan_reads (fun hr => absurd hr hcommand) h)).imp ?_ ?_
    · exact SeesAny.mono (rule.asks_plan true)
    · exact And.imp_left rule.mayEnd_plan

theorem SeesAny.left {looks others : List Look} (h : SeesAny looks a) : SeesAny (looks ++ others) a :=
  h.mono (List.subset_append_left _ _)

theorem SeesAny.right {looks others : List Look} (h : SeesAny others a) : SeesAny (looks ++ others) a :=
  h.mono (List.subset_append_right _ _)

/-- One phrase and then a plan begin as one of them does. -/
theorem begins_then {rule : Rule} {next : Plan} {c : Cursor} (hnext : next.Begins)
    (hrule : SeesAny (rule.asks true) a ∨ (rule.mayEnd = true ∧ c = a)) (h : next.Reads n c b) :
    SeesAny (rule.asks true ++ if rule.mayEnd then next.asks true else []) a ∨
      ((rule.mayEnd && next.mayEnd) = true ∧ b = a) := by
  rcases hrule with hsees | ⟨hend, rfl⟩
  · exact .inl hsees.left
  · rw [hend]
    exact (hnext n c b h).imp SeesAny.right id

/-- **A text that a plan reads begins as the plan asks.** -/
theorem Plan.begins (plan : Plan) : plan.Begins := by
  induction hcost : plan.cost using Nat.strongRecOn generalizing plan with
  | ind k ih =>
      subst hcost
      intro n a b h
      cases plan with
      | done => exact .inr ⟨rfl, h⟩
      | reject mode wanted => cases h
      | look mode wanted yes no =>
          rcases h with ⟨hsees, -⟩ | hno
          · exact .inl (sees_iff.mp hsees).left
          · have hbegins := ih no.cost (by simp only [Plan.cost]; omega) no rfl n a b hno
            refine hbegins.imp SeesAny.right (And.imp_left fun hend => ?_)
            simp only [Plan.mayEnd, hend, Bool.or_true]
      | take mode wanted yes no | extend mode wanted yes no =>
          rcases h with ⟨c, htakes, -⟩ | hno
          · exact .inl (sees_iff.mp htakes.sees).left
          · have hbegins := ih no.cost (by simp only [Plan.cost]; omega) no rfl n a b hno
            exact hbegins.imp SeesAny.right id
      | call rule next =>
          obtain ⟨c, hrule, hnext⟩ := h
          have hle := rule.cost_le_weight
          have hplan := ih rule.plan.cost (by simp only [Plan.cost]; omega) rule.plan rfl
          exact begins_then (ih next.cost (by simp only [Plan.cost]; omega) next rfl) (rule_begins hplan hrule)
            hnext
      | enter rule next =>
          obtain ⟨m, c, -, hrule, hnext⟩ := h
          have hle := rule.cost_le_weight
          have hplan := ih rule.plan.cost (by simp only [Plan.cost]; omega) rule.plan rfl
          exact begins_then (ih next.cost (by simp only [Plan.cost]; omega) next rfl) (rule_begins hplan hrule)
            hnext
      | jump rule =>
          have hle := rule.cost_le_weight
          exact rule_begins (ih rule.plan.cost (by simp only [Plan.cost]; omega) rule.plan rfl) h
      | opener next => exact ih next.cost (by simp only [Plan.cost]; omega) next rfl n a b h
      | target next =>
          rcases h with ⟨c, d, hname, -, -⟩ | hnext
          · exact .inl (name_sees hname).left
          · have hbegins := ih next.cost (by simp only [Plan.cost]; omega) next rfl n a b hnext
            exact hbegins.imp SeesAny.right id

theorem begins_before {plan : Plan} {rest : List Look} (h : plan.Reads n a b) (hb : SeesAny rest b) :
    SeesAny (plan.asksBefore true rest) a := by
  unfold Plan.asksBefore
  rcases plan.begins n a b h with hsees | ⟨hend, rfl⟩
  · exact hsees.left
  · rw [if_pos hend]
    exact hb.right

/-! ## Less may follow -/

variable {plan : Plan} {rest rest' noted noted' : List Look}

theorem asksBefore_mono (all : Bool) (hrest : rest' ⊆ rest) :
    plan.asksBefore all rest' ⊆ plan.asksBefore all rest := by
  unfold Plan.asksBefore
  refine List.append_subset.mpr ⟨List.subset_append_left _ _, ?_⟩
  by_cases hend : plan.mayEnd = true
  · rw [if_pos hend, if_pos hend]
    exact List.Subset.trans hrest (List.subset_append_right _ _)
  · rw [if_neg hend]
    exact List.nil_subset _

theorem all_mono {q : Look → Bool} (hrest : rest' ⊆ rest) (h : rest.all q = true) : rest'.all q = true :=
  List.all_eq_true.mpr fun l hl => List.all_eq_true.mp h l (hrest hl)

/-- A plan that fits where much may follow fits where less may follow. -/
theorem fits_mono (hrest : rest' ⊆ rest) (hnoted : noted' ⊆ noted) (h : plan.fits rest noted = true) :
    plan.fits rest' noted' = true := by
  induction plan with
  | done | reject => rfl
  | look mode wanted yes no ihyes ihno =>
      simp only [Plan.fits, Bool.and_eq_true] at h ⊢
      obtain ⟨⟨⟨⟨hyes, hno⟩, hexcludes⟩, hmode⟩, hamong⟩ := h
      exact ⟨⟨⟨⟨ihyes hyes, ihno hno⟩, all_mono (asksBefore_mono true hrest) hexcludes⟩,
        all_mono (asksBefore_mono true hrest) hmode⟩, all_mono (asksBefore_mono false hnoted) hamong⟩
  | take mode wanted yes no ihyes ihno | extend mode wanted yes no ihyes ihno =>
      simp only [Plan.fits, Bool.and_eq_true] at h ⊢
      obtain ⟨⟨hyes, hno⟩, hexcludes⟩ := h
      exact ⟨⟨ihyes hyes, ihno hno⟩, all_mono (asksBefore_mono true hrest) hexcludes⟩
  | call rule next ih | enter rule next ih =>
      simp only [Plan.fits, Bool.and_eq_true] at h ⊢
      obtain ⟨⟨hnext, hfollow⟩, hnotes⟩ := h
      exact ⟨⟨ih hnext, all_mono (asksBefore_mono true hrest) hfollow⟩,
        all_mono (asksBefore_mono false hnoted) hnotes⟩
  | jump rule =>
      simp only [Plan.fits, Bool.and_eq_true] at h ⊢
      exact ⟨all_mono hrest h.1, all_mono hnoted h.2⟩
  | opener next ih =>
      simp only [Plan.fits, Bool.and_eq_true] at h ⊢
      exact ⟨ih h.1, all_mono (asksBefore_mono true hrest) h.2⟩
  | target next ih =>
      simp only [Plan.fits, Bool.and_eq_true] at h ⊢
      obtain ⟨⟨hnext, hexcludes⟩, hboolean⟩ := h
      exact ⟨⟨ih hnext, all_mono hrest hexcludes⟩, hboolean⟩

end Esql.Syntax
