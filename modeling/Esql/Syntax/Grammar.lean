import Esql.Syntax.Token

/-!
# `Syntax.Grammar` — the rules of the language

Each rule of the grammar is given by a `Plan`: what to do at a place, decided by one token of lookahead.
A plan is a finite tree of data, so a property of the whole grammar is checked by running through the
rules. A plan that ends by jumping to a rule forgets where it was; one that calls a rule goes on after it.

A plan also says what is remembered for diagnostics. A token that was wanted and did not come is noted as
expected, in the order in which it was tried, until the next token is taken. Some wants go unnoted: those
that continue what has just been read, such as the dot of a longer name.

## Contents
- `Rule` and `Plan`;
- plans that recur: `expect`, `oneOf`;
- `Rule.plan`, the grammar, by commands, names, expressions and constants.
-/

namespace Esql.Syntax

/-- The phrases of the language. -/
inductive Rule where
  | statement | pipeline | sourceCommand | command
  | indexList | metadata | metadataFields | indexPattern | indexSelector
  | aggregates | aggregate | grouping
  | renameField | renameList
  | sortKey | nullsOrder | sortKeys
  | dissectOption | grokPatterns
  | enrichKey | enrichFields | enrichField | enrichFieldList
  | changePointOutput
  | fields | field
  | qualifiedNames | qualifiedName | qualifiedTail | identifier
  | namePatterns | namePattern
  | boolean | conjunction | negation | predicate
  | likePatterns | likeList | inList | inItems
  | comparison | additive | multiplicative | unary | casts
  | primary | parenthesized | arguments | argumentList | entries | entryList
  | constant | array | numbers | numberValue | numberList | booleans | booleanList | strings
deriving DecidableEq, Repr

/-- What to do at a place. -/
inductive Plan where
  /-- The phrase is complete. -/
  | done
  /-- Refuse the next token, having wanted one of these. -/
  | reject (mode : Mode) (wanted : List Terminal)
  /-- Go on by what the next token is, leaving it where it is. -/
  | look (mode : Mode) (wanted : List Terminal) (yes no : Plan)
  /-- Take the next token if it is wanted; if not, note what was expected. -/
  | take (mode : Mode) (wanted : List Terminal) (yes no : Plan)
  /-- Take the next token if it is wanted, and note nothing if not. -/
  | extend (mode : Mode) (wanted : List Terminal) (yes no : Plan)
  /-- Read a phrase of this rule, then go on. -/
  | call (rule : Rule) (next : Plan)
  /-- Go on with this rule instead. -/
  | jump (rule : Rule)
  /-- Remember the next token as the opener of what may be nested. -/
  | opener (next : Plan)
  /-- Read a phrase of this rule one level deeper, then go on. -/
  | enter (rule : Rule) (next : Plan)
  /-- Take a qualified name and the `=` behind it where they stand here, then go on. -/
  | target (next : Plan)
deriving Repr

namespace Plan

/-- Take a wanted token or refuse. -/
def expect (mode : Mode) (wanted : List Terminal) (next : Plan) : Plan :=
  take mode wanted next (reject mode [])

/-- Take the first of the words that comes and go on with its plan, or refuse. -/
def oneOf : List (Keyword × Plan) → Plan
  | [] => reject .expression []
  | (w, plan) :: others => take .expression [.word w] plan (oneOf others)

end Plan

namespace Rule

open Plan

/-! ## Statements and commands -/

/-- The commands that may stand behind a pipe. -/
def commands : List (Keyword × Plan) :=
  [(.CHANGE_POINT,
      call qualifiedName <|
        take .expression [.word .ON] (call qualifiedName (jump changePointOutput))
          (jump changePointOutput)),
   (.DISSECT,
      call primary <| expect .expression [.kind .string] <|
        look .expression [.name, .kind .quotedIdentifier] (jump dissectOption) done),
   (.DROP, jump namePatterns),
   (.ENRICH,
      expect .source [.kind .source] <|
        extend .source [.kind .colon] (expect .source [.kind .source] (jump enrichKey))
          (jump enrichKey)),
   (.EVAL, jump fields),
   (.GROK, call primary (expect .expression [.kind .string] (jump grokPatterns))),
   (.INLINESTATS,
      look .expression [.kind .pipe, .kind .endOfText, .word .BY] (jump grouping) (jump aggregates)),
   (.KEEP, jump namePatterns),
   (.LIMIT, expect .expression [.kind .integer, .kind .parameter] done),
   (.LOOKUP,
      expect .expression [.word .JOIN] <| call indexPattern <|
        expect .expression [.word .ON] (jump qualifiedNames)),
   (.MV_EXPAND, jump qualifiedName),
   (.RENAME, jump renameField),
   (.SAMPLE, jump constant),
   (.SORT, jump sortKey),
   (.STATS,
      look .expression [.kind .pipe, .kind .endOfText, .word .BY] (jump grouping) (jump aggregates)),
   (.WHERE, jump boolean)]

/-- The commands that a statement may begin with. -/
def sources : List (Keyword × Plan) :=
  [(.FROM, jump indexList), (.ROW, jump fields), (.SHOW, expect .expression [.word .INFO] done)]

/-- The plan of a rule. -/
def plan : Rule → Plan
  | statement => call sourceCommand (jump pipeline)
  | pipeline =>
    take .expression [.kind .pipe] (call command (jump pipeline)) <|
      look .expression [.kind .endOfText] done (reject .expression [.kind .endOfText])
  | sourceCommand => oneOf sources
  | command => oneOf commands
  -- `FROM`: index patterns, then the metadata fields.
  | indexList =>
    call indexPattern <| take .source [.kind .comma] (jump indexList) (jump metadata)
  | metadata => take .source [.word .METADATA] (jump metadataFields) done
  | metadataFields =>
    expect .source [.kind .source] <| take .source [.kind .comma] (jump metadataFields) done
  -- An index pattern may name a cluster before it and a selector behind it.
  | indexPattern =>
    take .source [.kind .string] done <|
      expect .source [.kind .source] <|
        extend .source [.kind .colon] (expect .source [.kind .source] (jump indexSelector))
          (jump indexSelector)
  | indexSelector => extend .source [.kind .cast] (expect .source [.kind .source] done) done
  -- `STATS`: aggregates and their grouping, either of which may be missing.
  | aggregates =>
    call aggregate <| take .expression [.kind .comma] (jump aggregates) (jump grouping)
  | aggregate => call field <| take .expression [.word .WHERE] (jump boolean) done
  | grouping => take .expression [.word .BY] (jump fields) done
  -- `RENAME`: old names and new ones, in either order.
  | renameField =>
    call namePattern <|
      take .pattern [.word .AS] (call namePattern (jump renameList)) <|
        expect .pattern [.kind .assign] (call namePattern (jump renameList))
  | renameList => take .pattern [.kind .comma] (jump renameField) done
  -- `SORT`: keys with their direction and the place of nulls.
  | sortKey =>
    call boolean <|
      take .expression [.word .ASC] (jump nullsOrder) <|
        take .expression [.word .DESC] (jump nullsOrder) (jump nullsOrder)
  | nullsOrder =>
    take .expression [.word .NULLS]
      (take .expression [.word .FIRST] (jump sortKeys) <|
        expect .expression [.word .LAST] (jump sortKeys))
      (jump sortKeys)
  | sortKeys => take .expression [.kind .comma] (jump sortKey) done
  | dissectOption =>
    call identifier <| expect .expression [.kind .assign] <| call constant <|
      take .expression [.kind .comma] (jump dissectOption) done
  | grokPatterns =>
    take .expression [.kind .comma] (expect .expression [.kind .string] (jump grokPatterns)) done
  -- `ENRICH`: a policy, the field to match on, and the fields to add.
  | enrichKey =>
    take .pattern [.word .ON] (call namePattern (jump enrichFields)) (jump enrichFields)
  | enrichFields => take .pattern [.word .WITH] (jump enrichField) done
  | enrichField =>
    call namePattern <|
      take .pattern [.kind .assign] (call namePattern (jump enrichFieldList)) (jump enrichFieldList)
  | enrichFieldList => take .pattern [.kind .comma] (jump enrichField) done
  | changePointOutput =>
    take .expression [.word .AS]
      (call qualifiedName (expect .expression [.kind .comma] (jump qualifiedName))) done
  -- Fields and names.
  | fields => call field <| take .expression [.kind .comma] (jump fields) done
  | field => target (jump boolean)
  | qualifiedNames =>
    call qualifiedName <| take .expression [.kind .comma] (jump qualifiedNames) done
  | qualifiedName => call identifier (jump qualifiedTail)
  | qualifiedTail =>
    extend .expression [.kind .dot] (call identifier (jump qualifiedTail)) done
  | identifier => expect .expression [.name, .kind .quotedIdentifier] done
  | namePatterns =>
    call namePattern <| take .pattern [.kind .comma] (jump namePatterns) done
  | namePattern =>
    expect .pattern [.kind .namePattern, .kind .quotedIdentifier, .kind .parameter] <|
      extend .pattern [.kind .dot] (jump namePattern) done
  -- Conditions.
  | boolean => call conjunction <| take .expression [.word .OR] (jump boolean) done
  | conjunction => call negation <| take .expression [.word .AND] (jump conjunction) done
  | negation => opener <| take .expression [.word .NOT] (enter negation done) (jump predicate)
  | predicate =>
    call comparison <|
      take .expression [.word .NOT]
        (take .expression [.word .LIKE] (jump likePatterns) <|
          take .expression [.word .RLIKE] (jump likePatterns) <|
            expect .expression [.word .IN] (jump inList)) <|
        take .expression [.word .LIKE] (jump likePatterns) <|
          take .expression [.word .RLIKE] (jump likePatterns) <|
            take .expression [.word .IN] (jump inList) <|
              take .expression [.word .IS]
                (take .expression [.word .NOT] (expect .expression [.word .NULL] done)
                  (expect .expression [.word .NULL] done)) <|
                take .expression [.kind .colon] (jump constant) done
  | likePatterns =>
    take .expression [.kind .string, .kind .parameter] done <|
      expect .expression [.kind .leftParen] (jump likeList)
  | likeList =>
    expect .expression [.kind .string] <|
      take .expression [.kind .comma] (jump likeList)
        (expect .expression [.kind .rightParen] done)
  | inList => expect .expression [.kind .leftParen] (jump inItems)
  | inItems =>
    call comparison <|
      take .expression [.kind .comma] (jump inItems)
        (expect .expression [.kind .rightParen] done)
  -- Values, by decreasing looseness of their operators.
  | comparison =>
    call additive <|
      take .expression
        [.kind .equal, .kind .notEqual, .kind .less, .kind .lessEqual, .kind .greater,
         .kind .greaterEqual, .kind .equalAnyCase]
        (jump additive) done
  | additive =>
    call multiplicative <|
      take .expression [.kind .plus, .kind .minus] (jump additive) done
  | multiplicative =>
    call unary <|
      take .expression [.kind .star, .kind .slash, .kind .percent] (jump multiplicative) done
  | unary =>
    opener <|
      take .expression [.kind .minus, .kind .plus] (enter unary done) (call primary (jump casts))
  | casts => extend .expression [.kind .cast] (call identifier (jump casts)) done
  | primary =>
    opener <|
      extend .expression [.kind .leftParen] (enter parenthesized done) <|
        look .expression
          [.kind .integer, .kind .decimal, .kind .string, .kind .parameter, .kind .leftBracket,
           .word .NULL, .word .TRUE, .word .FALSE]
          (jump constant) <|
          extend .expression [.name, .kind .quotedIdentifier]
            (extend .expression [.kind .leftParen] (enter arguments done) (jump qualifiedTail)) <|
            reject .expression
              [.kind .leftParen, .word .NULL, .word .TRUE, .word .FALSE, .kind .parameter,
               .kind .leftBracket, .kind .string, .kind .integer, .kind .decimal, .name,
               .kind .quotedIdentifier]
  | parenthesized => call boolean (expect .expression [.kind .rightParen] done)
  -- Arguments: none, a star, or conditions of which the last may be a map.
  | arguments =>
    extend .expression [.kind .rightParen] done <|
      extend .expression [.kind .star] (expect .expression [.kind .rightParen] done)
        (jump argumentList)
  | argumentList =>
    extend .expression [.kind .leftBrace]
      (call entries (expect .expression [.kind .rightParen] done)) <|
      call boolean <|
        take .expression [.kind .comma] (jump argumentList)
          (expect .expression [.kind .rightParen] done)
  | entries => extend .expression [.kind .rightBrace] done (jump entryList)
  | entryList =>
    expect .expression [.kind .string] <| expect .expression [.kind .colon] <| call constant <|
      take .expression [.kind .comma] (jump entryList)
        (expect .expression [.kind .rightBrace] done)
  -- Constants; a whole number may have a unit.
  | constant =>
    extend .expression [.kind .integer] (extend .expression [.name] done done) <|
      extend .expression [.kind .decimal, .kind .string, .kind .parameter] done <|
        extend .expression [.kind .plus, .kind .minus]
          (expect .expression [.kind .integer, .kind .decimal] done) <|
          extend .expression [.kind .leftBracket] (jump array) <|
            extend .expression [.word .NULL, .word .TRUE, .word .FALSE] done <|
              reject .expression
                [.word .NULL, .word .TRUE, .word .FALSE, .kind .parameter, .kind .leftBracket,
                 .kind .string, .kind .integer, .kind .decimal]
  -- The first element of an array fixes the kind of all.
  | array =>
    look .expression [.kind .integer, .kind .decimal, .kind .plus, .kind .minus] (jump numbers) <|
      look .expression [.kind .string] (jump strings) <|
        look .expression [.word .TRUE, .word .FALSE] (jump booleans) <|
          reject .expression
            [.word .TRUE, .word .FALSE, .kind .string, .kind .integer, .kind .decimal]
  | numbers =>
    take .expression [.kind .minus, .kind .plus] (jump numberValue) (jump numberValue)
  | numberValue => expect .expression [.kind .integer, .kind .decimal] (jump numberList)
  | numberList =>
    take .expression [.kind .comma] (jump numbers)
      (expect .expression [.kind .rightBracket] done)
  | booleans =>
    take .expression [.word .TRUE] (jump booleanList) <|
      expect .expression [.word .FALSE] (jump booleanList)
  | booleanList =>
    take .expression [.kind .comma] (jump booleans)
      (expect .expression [.kind .rightBracket] done)
  | strings =>
    expect .expression [.kind .string] <|
      take .expression [.kind .comma] (jump strings)
        (expect .expression [.kind .rightBracket] done)

end Rule

end Esql.Syntax
