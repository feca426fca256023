import Esql.Syntax.Grammar
import Esql.Syntax.Recognizer

/-!
# `Proofs.Grammar.Weight` — how long a rule can go on without a token

A rule that refers to itself takes a token first. So each rule has a weight, a bound for the steps that may
pass in it before a token is taken. An induction on what may happen before the next token goes by the weight.
-/

namespace Esql.Syntax

/-- A bound for the steps that may pass in a rule before a token is taken. -/
def Rule.weight : Rule → Nat
  | statement => 9
  | pipeline | likePatterns | numberList | booleanList => 3
  | sourceCommand | nullsOrder | enrichKey | entries | numbers => 4
  | command => 17
  | indexList => 8
  | metadata | metadataFields | indexSelector | grouping | renameList | sortKeys | grokPatterns | enrichFields
  | enrichFieldList | changePointOutput | qualifiedTail | identifier | namePattern | likeList | inList
  | casts | entryList | numberValue | strings => 2
  | indexPattern | booleans => 3
  | aggregates => 52
  | aggregate | argumentList => 47
  | renameField | constant | qualifiedName => 6
  | sortKey | arguments => 50
  | dissectOption | namePatterns => 5
  | enrichField | array => 7
  | fields => 47
  | field => 44
  | qualifiedNames => 9
  | boolean => 42
  | conjunction => 39
  | negation => 36
  | predicate => 33
  | inItems => 29
  | comparison => 25
  | additive => 22
  | multiplicative => 19
  | unary => 16
  | primary => 10
  | parenthesized => 45

/-- A bound for the steps that may pass in a plan before a token is taken, itself included. -/
def Plan.cost : Plan → Nat
  | done | reject .. => 1
  | look _ _ yes no => 1 + max yes.cost no.cost
  | take _ _ yes no | extend _ _ yes no => 1 + max (yes.cost - stepsPerCharacter) no.cost
  | call rule next => 1 + rule.weight + next.cost
  | jump rule => 1 + rule.weight
  | opener next | target next => 1 + next.cost
  | enter rule next => 2 + rule.weight + next.cost

theorem Plan.cost_pos (plan : Plan) : 0 < plan.cost := by
  cases plan <;> simp only [Plan.cost] <;> omega

theorem Rule.cost_le_weight (rule : Rule) : rule.plan.cost ≤ rule.weight := by
  cases rule <;> decide

end Esql.Syntax
