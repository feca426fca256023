/-!
# `Syntax.Keyword` — the words of the language

The words that the grammar gives a meaning, written in the capitals in which the language is usually
shown. A word is recognised whatever the case of its ASCII letters; some words may not stand for a name.
-/

namespace Esql.Syntax

/-- A word with a meaning of its own. -/
inductive Keyword where
  | AND | AS | ASC | BY | CHANGE_POINT | DESC | DISSECT | DROP | ENRICH | EVAL | FALSE | FIRST | FROM
  | GROK | IN | INFO | INLINESTATS | IS | JOIN | KEEP | LAST | LIKE | LIMIT | LOOKUP | METADATA
  | MV_EXPAND | NOT | NULL | NULLS | ON | OR | RENAME | RLIKE | ROW | SAMPLE | SHOW | SORT | STATS
  | TRUE | WHERE | WITH
deriving DecidableEq, Repr

namespace Keyword

/-- Every keyword, once. -/
def all : List Keyword :=
  [AND, AS, ASC, BY, CHANGE_POINT, DESC, DISSECT, DROP, ENRICH, EVAL, FALSE, FIRST, FROM, GROK, IN, INFO,
   INLINESTATS, IS, JOIN, KEEP, LAST, LIKE, LIMIT, LOOKUP, METADATA, MV_EXPAND, NOT, NULL, NULLS, ON, OR,
   RENAME, RLIKE, ROW, SAMPLE, SHOW, SORT, STATS, TRUE, WHERE, WITH]

/-- The spelling in small letters, as diagnostics quote it. -/
def spelling : Keyword → String
  | AND => "and"
  | AS => "as"
  | ASC => "asc"
  | BY => "by"
  | CHANGE_POINT => "change_point"
  | DESC => "desc"
  | DISSECT => "dissect"
  | DROP => "drop"
  | ENRICH => "enrich"
  | EVAL => "eval"
  | FALSE => "false"
  | FIRST => "first"
  | FROM => "from"
  | GROK => "grok"
  | IN => "in"
  | INFO => "info"
  | INLINESTATS => "inlinestats"
  | IS => "is"
  | JOIN => "join"
  | KEEP => "keep"
  | LAST => "last"
  | LIKE => "like"
  | LIMIT => "limit"
  | LOOKUP => "lookup"
  | METADATA => "metadata"
  | MV_EXPAND => "mv_expand"
  | NOT => "not"
  | NULL => "null"
  | NULLS => "nulls"
  | ON => "on"
  | OR => "or"
  | RENAME => "rename"
  | RLIKE => "rlike"
  | ROW => "row"
  | SAMPLE => "sample"
  | SHOW => "show"
  | SORT => "sort"
  | STATS => "stats"
  | TRUE => "true"
  | WHERE => "where"
  | WITH => "with"

/-- The words that cannot be names in an expression unless they are quoted. -/
def isReserved : Keyword → Bool
  | AND | ASC | BY | DESC | FALSE | IN | IS | LIKE | NOT | NULL | NULLS | OR | RLIKE | TRUE | WHERE => true
  | _ => false

/-- The keyword that `word` spells, whatever the case of its ASCII letters. -/
def ofWord? (word : List Char) : Option Keyword :=
  let small := word.map Char.toLower
  all.find? fun keyword => keyword.spelling.toList == small

theorem mem_all (keyword : Keyword) : keyword ∈ all := by cases keyword <;> decide

/-- Case makes no difference to the word that is recognised. -/
theorem ofWord?_congr {a b : List Char} (h : a.map Char.toLower = b.map Char.toLower) :
    ofWord? a = ofWord? b := by
  simp [ofWord?, h]

example : ofWord? "Mv_Expand".toList = some MV_EXPAND := by decide

end Keyword

end Esql.Syntax
