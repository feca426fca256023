import Esql.Proofs.Tokens.Extent
import Esql.Syntax.Recognizer
import Mathlib.Data.List.Nodup

/-!
# `Proofs.Grammar.Phrase` — the language as an ordinary grammar

The recognizer follows plans that decide by one token. The language that it is meant to recognize is stated
here without any deciding: a grammar whose productions are phrases, built by sequence, choice and repetition,
and a relation `Derives` that lets every choice and every repetition go either way. A token belongs to a
phrase by its kind or by its text alone, so nothing here depends on how keywords are looked up.

Nesting is part of a derivation: `Derives n` allows `n` levels of what is marked as nested.

## Contents
- `Terminal.Describes`: which tokens a terminal stands for, by kind and text.
- `Phrase`, `Category` and `Category.production`.
- `Derives`, and how a derivation of each kind of phrase is taken apart.
-/

namespace Esql.Syntax

/-! ## What a terminal stands for -/

/-- A token spells a keyword if it is a word with the letters of the keyword, in capitals or not. -/
def Token.Spells (token : Token) (w : Keyword) : Prop :=
  token.kind.isWord = true ∧ token.text.map Char.toLower = w.spelling.toList

/-- Which tokens a terminal stands for. -/
def Terminal.Describes : Terminal → Token → Prop
  | kind k, token => token.kind = k
  | word w, token => token.Spells w
  | name, token => token.kind = .identifier ∧ ∀ w : Keyword, w.isReserved = true → ¬ token.Spells w

theorem nodup_spelling : (Keyword.all.map Keyword.spelling).Nodup := by decide +kernel

theorem spelling_injective {v w : Keyword} (h : v.spelling = w.spelling) : v = w :=
  List.inj_on_of_nodup_map nodup_spelling (Keyword.mem_all v) (Keyword.mem_all w) h

theorem ofWord?_some {text : List Char} {w : Keyword} (h : Keyword.ofWord? text = some w) :
    w.spelling.toList = text.map Char.toLower := by
  have hfound := List.find?_some h
  exact beq_iff_eq.mp hfound

/-- A word spells a keyword exactly if that is the keyword which is looked up. -/
theorem ofWord?_eq_some_iff {text : List Char} {w : Keyword} :
    Keyword.ofWord? text = some w ↔ text.map Char.toLower = w.spelling.toList := by
  constructor
  · intro h
    exact (ofWord?_some h).symm
  · intro h
    cases hfind : Keyword.ofWord? text with
    | none =>
        have hnone := List.find?_eq_none.mp hfind w (Keyword.mem_all w)
        exact absurd (beq_iff_eq.mpr h.symm) hnone
    | some v => rw [spelling_injective (String.toList_inj.mp ((ofWord?_some hfind).trans h))]

/-- The keyword of a token is the one that it spells. -/
theorem keyword_eq_some_iff {mode : Mode} {here : Cursor} {token : Token}
    (h : here.next mode = .ok token) {w : Keyword} : token.keyword = some w ↔ token.Spells w := by
  have hsymbol : token.toSymbol = .ofText token.kind token.text := by
    obtain ⟨gap, hgap⟩ := next_ok h
    obtain hend | ⟨c, u, kind, hu, -, hsymbol⟩ := hgap.form
    · rw [hend]
      rfl
    · have hkind : token.kind = kind := by rw [hsymbol]; rfl
      rw [hkind, hu]
      exact hsymbol
  have hkeyword : token.keyword = if token.kind.isWord then Keyword.ofWord? token.text else none := by
    rw [hsymbol]
    rfl
  unfold Token.Spells
  rw [hkeyword]
  by_cases hword : token.kind.isWord = true
  · rw [if_pos hword, ofWord?_eq_some_iff]
    exact ⟨fun h => ⟨hword, h⟩, fun h => h.2⟩
  · rw [if_neg hword]
    exact ⟨fun h => (Option.some_ne_none _ h.symm).elim, fun h => absurd h.1 hword⟩

/-- What the recognizer sees of a token decides which terminals stand for it. -/
theorem accepts_iff_describes {mode : Mode} {here : Cursor} {token : Token}
    (h : here.next mode = .ok token) (t : Terminal) :
    t.accepts token.toSymbol = true ↔ t.Describes token := by
  cases t with
  | kind k => simp [Terminal.accepts, Terminal.Describes]
  | word w => simp [Terminal.accepts, Terminal.Describes, keyword_eq_some_iff h]
  | name =>
      simp only [Terminal.accepts, Terminal.Describes, Bool.and_eq_true, decide_eq_true_eq,
        Bool.not_eq_true', ← keyword_eq_some_iff h]
      refine and_congr_right fun _ => ?_
      cases token.keyword with
      | none => simp
      | some v =>
          constructor
          · rintro hv w hw ⟨⟩
            exact absurd hw (by simpa using hv)
          · intro hall
            exact Bool.eq_false_iff.mpr fun hv => hall v hv rfl

/-! ## One token -/

/-- One of these stands for the next token. -/
def Sees (mode : Mode) (wanted : List Terminal) (a : Cursor) : Prop :=
  ∃ token, a.next mode = .ok token ∧ token.isAmong wanted = true

/-- One of these stands for the next token, which ends at `b`. -/
def Takes (mode : Mode) (wanted : List Terminal) (a b : Cursor) : Prop :=
  ∃ token, a.next mode = .ok token ∧ token.isAmong wanted = true ∧ token.finish = b

/-! ## Phrases -/

/-- The phrases that have a name. -/
inductive Category where
  | statement | source | indexPattern | command
  | aggregate | renamed | sortKey | option | enrichment
  | fields | field | identifier | name | pattern
  | boolean | conjunction | negation | predicate | likePatterns
  | value | sum | product | unary | primary | arguments | entry
  | constant | literal | number | truth

/-- The form of a phrase. -/
inductive Phrase where
  /-- No token. -/
  | empty
  /-- A token that one of these stands for. -/
  | token (mode : Mode) (wanted : List Terminal)
  /-- One phrase and then another. -/
  | both (first second : Phrase)
  | either (one other : Phrase)
  /-- A phrase any number of times. -/
  | many (phrase : Phrase)
  | part (category : Category)
  /-- A phrase one level deeper. -/
  | nested (phrase : Phrase)

namespace Phrase

/-- A token of a kind. -/
def mark (k : Kind) (mode : Mode := .expression) : Phrase := token mode [.kind k]

/-- A keyword. -/
def word (w : Keyword) (mode : Mode := .expression) : Phrase := token mode [.word w]

/-- Phrases one after the other. -/
def seq : List Phrase → Phrase
  | [] => empty
  | [phrase] => phrase
  | phrase :: phrases => both phrase (seq phrases)

/-- One of some phrases. -/
def oneOf : List Phrase → Phrase
  | [] => empty
  | [phrase] => phrase
  | phrase :: phrases => either phrase (oneOf phrases)

/-- A phrase that may be missing. -/
def optional (phrase : Phrase) : Phrase := either phrase empty

/-- A phrase once or more often, with a separator between. -/
def list (phrase separator : Phrase) : Phrase := both phrase (many (both separator phrase))

/-- Phrases with commas between. -/
def commas (phrase : Phrase) (mode : Mode := .expression) : Phrase := list phrase (mark .comma mode)

end Phrase

open Phrase in
/-- The productions of the grammar. -/
def Category.production : Category → Phrase
  | statement =>
    seq [part source, many (both (mark .pipe) (part command)), mark .endOfText]
  | source =>
    Phrase.oneOf
      [seq [word .FROM, commas (part indexPattern) .source,
          optional (both (word .METADATA .source) (commas (mark .source .source) .source))],
       both (word .ROW) (part fields),
       both (word .SHOW) (word .INFO)]
  | indexPattern =>
    either (mark .string .source) <|
      seq [mark .source .source,
        optional (both (mark .colon .source) (mark .source .source)),
        optional (both (mark .cast .source) (mark .source .source))]
  | command =>
    Phrase.oneOf
      [seq [word .CHANGE_POINT, part name, optional (both (word .ON) (part name)),
          optional (seq [word .AS, part name, mark .comma, part name])],
       seq [word .DISSECT, part primary, mark .string, optional (commas (part option))],
       both (word .DROP) (commas (part pattern) .pattern),
       seq [word .ENRICH, mark .source .source,
          optional (both (mark .colon .source) (mark .source .source)),
          optional (both (word .ON .pattern) (part pattern)),
          optional (both (word .WITH .pattern) (commas (part enrichment) .pattern))],
       both (word .EVAL) (part fields),
       seq [word .GROK, part primary, commas (mark .string)],
       seq [word .INLINESTATS, optional (commas (part aggregate)),
          optional (both (word .BY) (part fields))],
       both (word .KEEP) (commas (part pattern) .pattern),
       both (word .LIMIT) (token .expression [.kind .integer, .kind .parameter]),
       seq [word .LOOKUP, word .JOIN, part indexPattern, word .ON, commas (part name)],
       both (word .MV_EXPAND) (part name),
       both (word .RENAME) (commas (part renamed) .pattern),
       both (word .SAMPLE) (part constant),
       both (word .SORT) (commas (part sortKey)),
       seq [word .STATS, optional (commas (part aggregate)),
          optional (both (word .BY) (part fields))],
       both (word .WHERE) (part boolean)]
  | aggregate => both (part field) (optional (both (word .WHERE) (part boolean)))
  | renamed =>
    seq [part pattern, token .pattern [.word .AS, .kind .assign], part pattern]
  | sortKey =>
    seq [part boolean, optional (token .expression [.word .ASC, .word .DESC]),
      optional (both (word .NULLS) (token .expression [.word .FIRST, .word .LAST]))]
  | option => seq [part identifier, mark .assign, part constant]
  | enrichment => both (part pattern) (optional (both (mark .assign .pattern) (part pattern)))
  | fields => commas (part field)
  | field => both (optional (both (part name) (mark .assign))) (part boolean)
  | identifier => token .expression [.name, .kind .quotedIdentifier]
  | name => list (part identifier) (mark .dot)
  | pattern =>
    list (token .pattern [.kind .namePattern, .kind .quotedIdentifier, .kind .parameter])
      (mark .dot .pattern)
  | boolean => list (part conjunction) (word .OR)
  | conjunction => list (part negation) (word .AND)
  | negation => either (both (word .NOT) (nested (part negation))) (part predicate)
  | predicate =>
    both (part value) <| optional <| Phrase.oneOf
      [seq [optional (word .NOT), token .expression [.word .LIKE, .word .RLIKE], part likePatterns],
       seq [optional (word .NOT), word .IN, mark .leftParen, commas (part value), mark .rightParen],
       seq [word .IS, optional (word .NOT), word .NULL],
       both (mark .colon) (part constant)]
  | likePatterns =>
    either (token .expression [.kind .string, .kind .parameter]) <|
      seq [mark .leftParen, commas (mark .string), mark .rightParen]
  | value =>
    both (part sum) <| optional <|
      both
        (token .expression
          [.kind .equal, .kind .notEqual, .kind .less, .kind .lessEqual, .kind .greater,
           .kind .greaterEqual, .kind .equalAnyCase])
        (part sum)
  | sum => list (part product) (token .expression [.kind .plus, .kind .minus])
  | product => list (part unary) (token .expression [.kind .star, .kind .slash, .kind .percent])
  | unary =>
    either (both (token .expression [.kind .minus, .kind .plus]) (nested (part unary)))
      (both (part primary) (many (both (mark .cast) (part identifier))))
  | primary =>
    Phrase.oneOf
      [both (mark .leftParen) (nested (both (part boolean) (mark .rightParen))),
       part literal,
       seq [part identifier, mark .leftParen, nested (both (part arguments) (mark .rightParen))],
       part name]
  | arguments =>
    Phrase.oneOf
      [empty,
       mark .star,
       both (many (both (part boolean) (mark .comma))) <|
        either (part boolean) <|
          seq [mark .leftBrace, optional (commas (part entry)), mark .rightBrace]]
  | entry => seq [mark .string, mark .colon, part constant]
  | constant =>
    either (part literal)
      (both (token .expression [.kind .plus, .kind .minus])
        (token .expression [.kind .integer, .kind .decimal]))
  -- A whole number may have a unit.
  | literal =>
    Phrase.oneOf
      [both (mark .integer) (optional (token .expression [.name])),
       token .expression [.kind .decimal, .kind .string, .kind .parameter],
       seq [mark .leftBracket,
          Phrase.oneOf [commas (part number), commas (mark .string), commas (part truth)],
          mark .rightBracket],
       token .expression [.word .NULL, .word .TRUE, .word .FALSE]]
  | number =>
    both (optional (token .expression [.kind .minus, .kind .plus]))
      (token .expression [.kind .integer, .kind .decimal])
  | truth => token .expression [.word .TRUE, .word .FALSE]

/-! ## Derivations -/

/-- `Derives n phrase a b`: the text from `a` to `b` is the phrase, with at most `n` levels of nesting. -/
inductive Derives : Nat → Phrase → Cursor → Cursor → Prop where
  | empty {n a} : Derives n .empty a a
  | token {n mode wanted a t} {token : Token} : a.next mode = .ok token → t ∈ wanted →
      t.Describes token → Derives n (.token mode wanted) a token.finish
  | both {n p q a b c} : Derives n p a b → Derives n q b c → Derives n (.both p q) a c
  | one {n p q a b} : Derives n p a b → Derives n (.either p q) a b
  | other {n p q a b} : Derives n q a b → Derives n (.either p q) a b
  | done {n p a} : Derives n (.many p) a a
  | more {n p a b c} : Derives n p a b → Derives n (.many p) b c → Derives n (.many p) a c
  | part {n category a b} : Derives n category.production a b → Derives n (.part category) a b
  | nested {n p a b} : Derives n p a b → Derives (n + 1) (.nested p) a b

/-! ## Derivations taken apart -/

section
variable {n : Nat} {p q r : Phrase} {mode : Mode} {wanted : List Terminal} {a b : Cursor}

@[simp] theorem derives_empty_iff : Derives n .empty a b ↔ b = a := by
  constructor
  · intro h
    cases h
    rfl
  · rintro rfl
    exact .empty

@[simp] theorem derives_token_iff : Derives n (.token mode wanted) a b ↔ Takes mode wanted a b := by
  constructor
  · intro h
    cases h with
    | @token _ _ _ _ t token hnext ht hdescribes =>
        refine ⟨token, hnext, List.any_eq_true.mpr ⟨t, ht, ?_⟩, rfl⟩
        exact (accepts_iff_describes hnext t).mpr hdescribes
  · rintro ⟨token, hnext, hamong, rfl⟩
    obtain ⟨t, ht, haccepts⟩ := List.any_eq_true.mp hamong
    exact .token hnext ht ((accepts_iff_describes hnext t).mp haccepts)

theorem derives_both_iff : Derives n (.both p q) a b ↔ ∃ c, Derives n p a c ∧ Derives n q c b := by
  constructor
  · intro h
    cases h with
    | both hp hq => exact ⟨_, hp, hq⟩
  · rintro ⟨c, hp, hq⟩
    exact .both hp hq

@[simp] theorem derives_either_iff :
    Derives n (.either p q) a b ↔ Derives n p a b ∨ Derives n q a b := by
  constructor
  · intro h
    cases h with
    | one hp => exact .inl hp
    | other hq => exact .inr hq
  · rintro (hp | hq)
    · exact .one hp
    · exact .other hq

@[simp] theorem derives_nested_iff : Derives n (.nested p) a b ↔ ∃ m, n = m + 1 ∧ Derives m p a b := by
  constructor
  · intro h
    cases h with
    | nested h => exact ⟨_, rfl, h⟩
  · rintro ⟨m, rfl, h⟩
    exact .nested h

theorem derives_part_iff (category : Category) (a : Cursor) :
    Derives n (.part category) a b ↔ Derives n category.production a b := by
  constructor
  · intro h
    cases h with
    | part h => exact h
  · exact .part

/-! ### What comes first

These bring a sequence into the form in which its first token or named phrase stands in front. -/

@[simp] theorem derives_empty_both_iff : Derives n (.both .empty q) a b ↔ Derives n q a b := by
  simp [derives_both_iff]

@[simp] theorem derives_token_both_iff :
    Derives n (.both (.token mode wanted) q) a b ↔ ∃ c, Takes mode wanted a c ∧ Derives n q c b := by
  simp [derives_both_iff]

@[simp] theorem derives_part_both_iff {category : Category} :
    Derives n (.both (.part category) q) a b
      ↔ ∃ c, Derives n (.part category) a c ∧ Derives n q c b :=
  derives_both_iff

@[simp] theorem derives_either_both_iff :
    Derives n (.both (.either p r) q) a b ↔ Derives n (.both p q) a b ∨ Derives n (.both r q) a b := by
  simp only [derives_both_iff, derives_either_iff, or_and_right, exists_or]

@[simp] theorem derives_both_both_iff :
    Derives n (.both (.both p r) q) a b ↔ Derives n (.both p (.both r q)) a b := by
  simp only [derives_both_iff]
  constructor
  · rintro ⟨d, ⟨c, hp, hr⟩, hq⟩
    exact ⟨c, hp, d, hr, hq⟩
  · rintro ⟨c, hp, d, hr, hq⟩
    exact ⟨d, ⟨c, hp, hr⟩, hq⟩

/-! ### Phrases that refer to themselves

The place at which the phrase begins says which occurrence is meant. -/

theorem derives_many_iff (a : Cursor) :
    Derives n (.many p) a b ↔ Derives n (.either .empty (.both p (.many p))) a b := by
  constructor
  · intro h
    cases h with
    | done => exact .one .empty
    | more hp hmany => exact .other (.both hp hmany)
  · intro h
    cases h with
    | one h =>
        cases h
        exact .done
    | other h =>
        cases h with
        | both hp hmany => exact .more hp hmany

theorem derives_many_both_iff (a : Cursor) :
    Derives n (.both (.many p) q) a b ↔ Derives n (.either q (.both p (.both (.many p) q))) a b := by
  have hmany : Derives n (.both (.many p) q) a b
      ↔ Derives n (.both (.either .empty (.both p (.many p))) q) a b := by
    rw [derives_both_iff, derives_both_iff]
    exact exists_congr fun c => and_congr_left fun _ => derives_many_iff a
  rw [hmany]
  simp

/-- A list is its first element, and perhaps a separator and another list. -/
theorem derives_list_iff (a : Cursor) :
    Derives n (.list p q) a b ↔ Derives n (.both p (.optional (.both q (.list p q)))) a b := by
  rw [Phrase.list, derives_both_iff, derives_both_iff]
  refine exists_congr fun c => and_congr_right fun _ => (derives_many_iff c).trans ?_
  simp only [Phrase.optional, derives_either_iff, derives_both_both_iff]
  exact or_comm

theorem derives_list_both_iff (a : Cursor) :
    Derives n (.both (.list p q) r) a b
      ↔ Derives n (.both p (.either (.both q (.both (.list p q) r)) r)) a b := by
  have hlist : Derives n (.both (.list p q) r) a b
      ↔ Derives n (.both (.both p (.optional (.both q (.list p q)))) r) a b := by
    rw [derives_both_iff, derives_both_iff]
    exact exists_congr fun c => and_congr_left fun _ => derives_list_iff a
  rw [hlist, derives_both_both_iff, derives_both_iff, derives_both_iff]
  refine exists_congr fun c => and_congr_right fun _ => ?_
  simp [Phrase.optional]

theorem derives_production_both_iff (category : Category) :
    Derives n (.both (.part category) q) a b ↔ Derives n (.both category.production q) a b := by
  simp only [derives_both_iff, derives_part_iff category]

end

end Esql.Syntax
