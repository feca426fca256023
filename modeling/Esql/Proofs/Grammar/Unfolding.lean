import Esql.Proofs.Grammar.Phrase
import Esql.Proofs.Tokens.Modes
import Esql.Syntax.Grammar

/-!
# `Proofs.Grammar.Unfolding` — what the plans of the rules read

A plan is read here without looking ahead: every choice may go either way, so a plan is an ordinary
description of texts, and a rule is the phrase of the grammar that it stands for. For each rule the two agree:
what its plan reads is its phrase. The rules are taken one by one, but all in the same way: the phrase is
brought into the form in which its first token stands in front, which is the form of a plan.

Two looks are more than a choice. A primary looks for a constant without a sign before it reads one
(`primary`), and `STATS` looks for what may follow it (`command`), so there the plan reads the phrase only
where something that may follow a command is next.

## Contents
- `Rule.phrase`, `Rule.Reads` and `Plan.Reads`.
- The rules, by commands, names, conditions, values and constants.
- `Rule.reads_of_plan` and `Rule.plan_reads`.
-/

namespace Esql.Syntax

variable {n : Nat} {mode : Mode} {wanted : List Terminal} {a b : Cursor}

/-! ## One token -/

theorem Takes.sees (h : Takes mode wanted a b) : Sees mode wanted a := by
  obtain ⟨token, hnext, hamong, -⟩ := h
  exact ⟨token, hnext, hamong⟩

theorem isAmong_mono {token : Token} {ts us : List Terminal} (hsub : ∀ t ∈ ts, t ∈ us)
    (h : token.isAmong ts = true) : token.isAmong us = true := by
  obtain ⟨t, ht, haccepts⟩ := List.any_eq_true.mp h
  exact List.any_eq_true.mpr ⟨t, hsub t ht, haccepts⟩

theorem Sees.mono {ts us : List Terminal} (hsub : ∀ t ∈ ts, t ∈ us) (h : Sees mode ts a) :
    Sees mode us a := by
  obtain ⟨token, hnext, hamong⟩ := h
  exact ⟨token, hnext, isAmong_mono hsub hamong⟩

/-- What is seen is not also a token that none of these can be. -/
theorem Sees.not_sees {ts us : List Terminal} (h : Sees mode ts a)
    (hexcludes : ∀ t ∈ ts, ∀ u ∈ us, t.excludes u = true) : ¬ Sees mode us a := by
  rintro ⟨token, hnext, hamong⟩
  obtain ⟨token', hnext', hamong'⟩ := h
  obtain rfl : token' = token := Except.ok.inj (hnext'.symm.trans hnext)
  obtain ⟨t, ht, haccepts⟩ := List.any_eq_true.mp hamong'
  obtain ⟨u, hu, haccepts'⟩ := List.any_eq_true.mp hamong
  have hboth := excludes_sound hnext haccepts haccepts'
  rw [hexcludes t ht u hu] at hboth
  cases hboth

theorem Takes.not_sees {ts us : List Terminal} (h : Takes mode ts a b)
    (hexcludes : ∀ t ∈ ts, ∀ u ∈ us, t.excludes u = true) : ¬ Sees mode us a :=
  h.sees.not_sees hexcludes

theorem takes_pair_iff {s t : Terminal} :
    Takes mode [s, t] a b ↔ Takes mode [s] a b ∨ Takes mode [t] a b := by
  simp only [Takes, Token.isAmong, List.any_cons, List.any_nil, Bool.or_false, Bool.or_eq_true]
  constructor
  · rintro ⟨token, hnext, hone | hother, hb⟩
    · exact .inl ⟨token, hnext, hone, hb⟩
    · exact .inr ⟨token, hnext, hother, hb⟩
  · rintro (⟨token, hnext, h, hb⟩ | ⟨token, hnext, h, hb⟩)
    · exact ⟨token, hnext, .inl h, hb⟩
    · exact ⟨token, hnext, .inr h, hb⟩

/-! ## Rules as phrases, and plans as texts -/

namespace Rule
open Phrase

/-- The phrase that a rule reads. What follows the whole statement is not part of it. -/
def phrase : Rule → Phrase
  | statement => both (part .source) (many (both (mark .pipe) (part .command)))
  | pipeline => many (both (mark .pipe) (part .command))
  | sourceCommand => part .source
  | command => part .command
  | indexList =>
    both (commas (part .indexPattern) .source) <|
      optional (both (word .METADATA .source) (commas (mark .source .source) .source))
  | metadata => optional (both (word .METADATA .source) (commas (mark .source .source) .source))
  | metadataFields => commas (mark .source .source) .source
  | indexPattern => part .indexPattern
  | indexSelector => optional (both (mark .cast .source) (mark .source .source))
  | aggregates =>
    both (commas (part .aggregate)) (optional (both (Phrase.word .BY) (part .fields)))
  | aggregate => part .aggregate
  | grouping => optional (both (Phrase.word .BY) (part .fields))
  | renameField => commas (part .renamed) .pattern
  | renameList => optional (both (mark .comma .pattern) (commas (part .renamed) .pattern))
  | sortKey => commas (part .sortKey)
  | nullsOrder =>
    both (optional (both (Phrase.word .NULLS) (token .expression [.word .FIRST, .word .LAST])))
      (optional (both (mark .comma) (commas (part .sortKey))))
  | sortKeys => optional (both (mark .comma) (commas (part .sortKey)))
  | dissectOption => commas (part .option)
  | grokPatterns => optional (both (mark .comma) (commas (mark .string)))
  | enrichKey =>
    both (optional (both (word .ON .pattern) (part .pattern)))
      (optional (both (word .WITH .pattern) (commas (part .enrichment) .pattern)))
  | enrichFields => optional (both (word .WITH .pattern) (commas (part .enrichment) .pattern))
  | enrichField => commas (part .enrichment) .pattern
  | enrichFieldList => optional (both (mark .comma .pattern) (commas (part .enrichment) .pattern))
  | changePointOutput => optional (seq [word .AS, part .name, mark .comma, part .name])
  | fields => part .fields
  | field => part .field
  | qualifiedNames => commas (part .name)
  | qualifiedName => part .name
  | qualifiedTail => optional (both (mark .dot) (part .name))
  | identifier => part .identifier
  | namePatterns => commas (part .pattern) .pattern
  | namePattern => part .pattern
  | boolean => part .boolean
  | conjunction => part .conjunction
  | negation => part .negation
  | predicate => part .predicate
  | likePatterns => part .likePatterns
  | likeList => both (commas (mark .string)) (mark .rightParen)
  | inList => seq [mark .leftParen, commas (part .value), mark .rightParen]
  | inItems => both (commas (part .value)) (mark .rightParen)
  | comparison => part .value
  | additive => part .sum
  | multiplicative => part .product
  | unary => part .unary
  | casts => many (both (mark .cast) (part .identifier))
  | primary => part .primary
  | parenthesized => both (part .boolean) (mark .rightParen)
  | arguments => both (part .arguments) (mark .rightParen)
  | argumentList =>
    both
      (both (many (both (part .boolean) (mark .comma))) <|
        either (part .boolean) <|
          seq [mark .leftBrace, optional (commas (part .entry)), mark .rightBrace])
      (mark .rightParen)
  | entries => both (optional (commas (part .entry))) (mark .rightBrace)
  | entryList => both (commas (part .entry)) (mark .rightBrace)
  | constant => part .constant
  | array =>
    both (Phrase.oneOf [commas (part .number), commas (mark .string), commas (part .truth)])
      (mark .rightBracket)
  | numbers => both (commas (part .number)) (mark .rightBracket)
  | numberValue =>
    seq [token .expression [.kind .integer, .kind .decimal],
      optional (both (mark .comma) (commas (part .number))), mark .rightBracket]
  | numberList => both (optional (both (mark .comma) (commas (part .number)))) (mark .rightBracket)
  | booleans => both (commas (part .truth)) (mark .rightBracket)
  | booleanList => both (optional (both (mark .comma) (commas (part .truth)))) (mark .rightBracket)
  | strings => both (commas (mark .string)) (mark .rightBracket)

/-- Behind what these rules read, the text is over. -/
def isLast : Rule → Bool
  | statement | pipeline => true
  | _ => false

/-- The text from `a` to `b` is what the rule reads. -/
def Reads (n : Nat) (r : Rule) (a b : Cursor) : Prop :=
  Derives n r.phrase a b ∧ (r.isLast = true → Sees .expression [.kind .endOfText] b)

end Rule

/-- The text from `a` to `b` is what the plan reads, if every choice of the plan may go either way. -/
def Plan.Reads (n : Nat) : Plan → Cursor → Cursor → Prop
  | done, a, b => b = a
  | reject .., _, _ => False
  | look mode wanted yes no, a, b => (Sees mode wanted a ∧ yes.Reads n a b) ∨ no.Reads n a b
  | take mode wanted yes no, a, b => (∃ c, Takes mode wanted a c ∧ yes.Reads n c b) ∨ no.Reads n a b
  | extend mode wanted yes no, a, b => (∃ c, Takes mode wanted a c ∧ yes.Reads n c b) ∨ no.Reads n a b
  | call rule next, a, b => ∃ c, rule.Reads n a c ∧ next.Reads n c b
  | jump rule, a, b => rule.Reads n a b
  | opener next, a, b => next.Reads n a b
  | enter rule next, a, b => ∃ m c, n = m + 1 ∧ rule.Reads m a c ∧ next.Reads n c b
  | target next, a, b =>
    (∃ c d, Derives n (.part .name) a c ∧ Takes .expression [.kind .assign] c d ∧ next.Reads n d b) ∨
      next.Reads n a b

attribute [simp] Plan.expect Plan.Reads Phrase.seq Phrase.oneOf Phrase.optional Phrase.word Phrase.mark
  Phrase.commas

/-! ## The rules -/

/-- The plan of a rule reads what the rule stands for. -/
def Rule.Unfolds (n : Nat) (a b : Cursor) (r : Rule) : Prop := r.plan.Reads n a b ↔ r.Reads n a b

-- Both sides are taken apart for every rule.
attribute [local simp] Rule.Unfolds Rule.plan Rule.Reads Rule.phrase Rule.isLast Category.production

theorem statement_unfolds : Rule.statement.Unfolds n a b := by
  simp
  grind

theorem pipeline_unfolds : Rule.pipeline.Unfolds n a b := by
  simp [derives_many_iff a]
  grind

theorem grokPatterns_unfolds : Rule.grokPatterns.Unfolds n a b := by
  simp
  refine or_congr_left (exists_congr fun c => and_congr_right fun _ => ?_)
  rw [derives_list_iff]
  simp

theorem qualifiedTail_unfolds : Rule.qualifiedTail.Unfolds n a b := by
  simp
  refine or_congr_left (exists_congr fun c => and_congr_right fun _ => ?_)
  rw [derives_part_iff .name, Category.production, derives_list_iff]
  simp [derives_part_iff .name]

theorem argumentList_unfolds : Rule.argumentList.Unfolds n a b := by
  simp [derives_many_both_iff a]
  rw [or_comm]
  simp [derives_both_iff]
  grind

theorem predicate_unfolds : Rule.predicate.Unfolds n a b := by
  simp [derives_part_iff .predicate a, takes_pair_iff, or_and_right, exists_or]
  grind

/-- The literals, by their first tokens. -/
def literals : List Terminal :=
  [.kind .integer, .kind .decimal, .kind .string, .kind .parameter, .kind .leftBracket, .word .NULL,
    .word .TRUE, .word .FALSE]

theorem literal_sees (h : Derives n (.part .literal) a b) : Sees .expression literals a := by
  simp [derives_part_iff .literal a] at h
  rcases h with ⟨c, h, -⟩ | h | ⟨c, h, -⟩ | h
  all_goals exact h.sees.mono (by decide)

theorem sign_not_literal (h : Takes .expression [.kind .plus, .kind .minus] a b) :
    ¬ Sees .expression literals a :=
  h.not_sees (by decide)

theorem primary_unfolds : Rule.primary.Unfolds n a b := by
  have hliteral : Sees .expression literals a ∧ Derives n (.part .constant) a b
      ↔ Derives n (.part .literal) a b := by
    rw [derives_part_iff .constant, Category.production, derives_either_iff]
    constructor
    · rintro ⟨hsees, h | h⟩
      · exact h
      · obtain ⟨c, hsign, -⟩ := derives_token_both_iff.mp h
        exact absurd hsees (sign_not_literal hsign)
    · intro h
      exact ⟨literal_sees h, .inl h⟩
  unfold literals at hliteral
  simp [derives_part_iff .primary a, derives_part_iff .identifier, derives_part_iff .name,
    derives_list_iff a, hliteral]
  grind

/-- A list begins with its first element. -/
theorem Derives.head {p q r : Phrase} (h : Derives n (.both (.list p q) r) a b) : ∃ c, Derives n p a c := by
  obtain ⟨c, hlist, -⟩ := derives_both_iff.mp h
  obtain ⟨d, hp, -⟩ := derives_both_iff.mp hlist
  exact ⟨d, hp⟩

theorem number_sees (h : Derives n (.part .number) a b) :
    Sees .expression [.kind .integer, .kind .decimal, .kind .plus, .kind .minus] a := by
  simp [derives_part_iff .number a] at h
  rcases h with ⟨c, h, -⟩ | h
  all_goals exact h.sees.mono (by decide)

theorem array_unfolds : Rule.array.Unfolds n a b := by
  have hnumbers : ∀ {r}, Derives n (.both (.list (.part .number) r) (.mark .rightBracket)) a b →
      Sees .expression [.kind .integer, .kind .decimal, .kind .plus, .kind .minus] a := by
    intro r h
    obtain ⟨c, h⟩ := h.head
    exact number_sees h
  have hstrings : ∀ {r}, Derives n (.both (.list (.mark .string) r) (.mark .rightBracket)) a b →
      Sees .expression [.kind .string] a := by
    intro r h
    obtain ⟨c, h⟩ := h.head
    exact (derives_token_iff.mp h).sees
  have htruths : ∀ {r}, Derives n (.both (.list (.part .truth) r) (.mark .rightBracket)) a b →
      Sees .expression [.word .TRUE, .word .FALSE] a := by
    intro r h
    obtain ⟨c, h⟩ := h.head
    exact (derives_token_iff.mp ((derives_part_iff _ _).mp h)).sees
  simp only [Phrase.mark] at hnumbers hstrings htruths
  simp
  grind

/-- Every rule but `command` reads what it stands for, wherever it stands. -/
theorem rule_unfolds (r : Rule) (hr : r ≠ .command) : r.Unfolds n a b := by
  cases r with
  | command => exact absurd rfl hr
  | statement => exact statement_unfolds
  | pipeline => exact pipeline_unfolds
  | grokPatterns => exact grokPatterns_unfolds
  | qualifiedTail => exact qualifiedTail_unfolds
  | argumentList => exact argumentList_unfolds
  | primary => exact primary_unfolds
  | array => exact array_unfolds
  | predicate => exact predicate_unfolds
  | sourceCommand =>
      simp [Rule.sources, Plan.oneOf, derives_part_iff .source a]
  | metadata | indexSelector | grouping | renameList | sortKeys | enrichKey | enrichFields
  | enrichFieldList | changePointOutput | inList | parenthesized | numberValue | numberList
  | booleanList =>
      simp
  | nullsOrder =>
      simp [takes_pair_iff, or_and_right, exists_or]
  | entries =>
      simp
      exact or_comm
  | casts =>
      simp [derives_many_iff a, or_comm]
  -- A list of what is no list itself.
  | metadataFields | qualifiedNames | namePatterns =>
      simp [derives_list_iff a]
  | indexList | aggregates | likeList | inItems | strings =>
      simp [derives_list_both_iff a]
  -- A list whose elements are read by the plan itself.
  | renameField =>
      simp [derives_list_iff a, derives_production_both_iff .renamed, takes_pair_iff, or_and_right, exists_or]
  | sortKey =>
      simp [derives_list_iff a, derives_production_both_iff .sortKey, takes_pair_iff, or_and_right, exists_or]
      grind
  | dissectOption | enrichField =>
      simp [derives_list_iff a, derives_production_both_iff .option, derives_production_both_iff .enrichment]
  | entryList | numbers | booleans =>
      simp [derives_list_both_iff a, derives_production_both_iff .entry, derives_production_both_iff .number,
        derives_production_both_iff .truth, takes_pair_iff, or_and_right, exists_or]
  -- A category that is a list, and goes on as the category.
  | fields | qualifiedName | namePattern | boolean | conjunction | additive | multiplicative =>
      simp [derives_list_iff a, derives_part_iff .fields, derives_part_iff .name, derives_part_iff .pattern,
        derives_part_iff .boolean, derives_part_iff .conjunction, derives_part_iff .sum,
        derives_part_iff .product]
  -- A category that is no list, and does not go on as itself.
  | indexPattern | aggregate | field | identifier | negation | likePatterns | comparison | unary =>
      simp [derives_part_iff .indexPattern a, derives_part_iff .aggregate a, derives_part_iff .field a,
        derives_part_iff .identifier a, derives_part_iff .negation a, derives_part_iff .likePatterns a,
        derives_part_iff .value a, derives_part_iff .unary a]
  | constant =>
      simp [derives_part_iff .constant a, derives_part_iff .literal a]
      grind
  | arguments =>
      simp [derives_production_both_iff .arguments]

/-! ## Commands -/

theorem option_sees (h : Derives n (.list (.part .option) (.mark .comma)) a b) :
    Sees .expression [.name, .kind .quotedIdentifier] a := by
  simp [derives_list_iff a, derives_production_both_iff .option, derives_part_iff .identifier] at h
  obtain ⟨c, h, -⟩ := h
  exact h.sees

/-- A list of strings in the form in which the plan for `GROK` reads it. -/
theorem strings_iff : Derives n (.commas (.mark .string)) a b ↔
    ∃ c, Takes .expression [.kind .string] a c ∧
      ((∃ d, Takes .expression [.kind .comma] c d ∧ Derives n (.commas (.mark .string)) d b) ∨ b = c) := by
  simp [derives_list_iff a]

/-- What the plan of a command reads is a command. -/
theorem command_reads_of_plan (h : Rule.command.plan.Reads n a b) : Rule.command.Reads n a b := by
  have hstrings := @strings_iff n
  simp only [Phrase.commas, Phrase.mark] at hstrings
  simp [Rule.commands, Plan.oneOf, derives_part_iff .command a, ← hstrings] at h ⊢
  rcases h with h | h | h | h | h | h | h | h | h | h | h | h | h | h | h | h
  -- `DISSECT`, `INLINESTATS` and `STATS` look ahead; the other plans are the phrases as they stand.
  case inr.inl => grind
  case inr.inr.inr.inr.inr.inr.inl => grind
  case inr.inr.inr.inr.inr.inr.inr.inr.inr.inr.inr.inr.inr.inr.inl => grind
  all_goals simp only [h, true_or, or_true]

/-- A command is what its plan reads where a pipe or nothing follows. -/
theorem command_unfolds (hb : Sees .expression [.kind .pipe, .kind .endOfText] b) :
    Rule.command.Unfolds n a b := by
  have hoption : ∀ c, Sees .expression [.name, .kind .quotedIdentifier] c ∧
      Derives n (.list (.part .option) (.mark .comma)) c b ↔
        Derives n (.list (.part .option) (.mark .comma)) c b :=
    fun c => and_iff_right_of_imp option_sees
  have hgrouping : ∀ c (aggregates : Prop), Sees .expression [.kind .pipe, .kind .endOfText, .word .BY] c ∧
      ((∃ d, Takes .expression [.word .BY] c d ∧ Derives n (.part .fields) d b) ∨ b = c) ∨ aggregates ↔
        aggregates ∨ (∃ d, Takes .expression [.word .BY] c d ∧ Derives n (.part .fields) d b) ∨ b = c := by
    intro c aggregates
    rw [or_comm]
    refine or_congr_right (and_iff_right_of_imp ?_)
    rintro (⟨d, hby, -⟩ | rfl)
    · exact hby.sees.mono (by decide)
    · exact hb.mono (by decide)
  have hstrings := @strings_iff n
  simp only [Phrase.commas, Phrase.mark] at hoption hstrings
  simp [Rule.commands, Plan.oneOf, derives_part_iff .command a, hoption, hgrouping, ← hstrings]
/-! ## All rules -/

/-- What the plan of a rule reads is what the rule stands for. -/
theorem Rule.reads_of_plan (r : Rule) (h : r.plan.Reads n a b) : r.Reads n a b := by
  by_cases hr : r = .command
  · subst hr
    exact command_reads_of_plan h
  · exact (rule_unfolds r hr).mp h

/-- What a rule stands for is read by its plan. -/
theorem Rule.plan_reads (r : Rule) (hb : r = .command → Sees .expression [.kind .pipe, .kind .endOfText] b)
    (h : r.Reads n a b) : r.plan.Reads n a b := by
  by_cases hr : r = .command
  · subst hr
    exact (command_unfolds (hb rfl)).mpr h
  · exact (rule_unfolds r hr).mpr h

end Esql.Syntax
