import Esql.Document.Toml.Reader
import Esql.Proofs.Document.TomlDates
import Esql.Proofs.Document.TomlStrings
import Mathlib.Data.List.TakeDrop

/-!
# `Proofs.Document.TomlScalars` — values without parts are read as they are written

A string, an integer, a truth value or a date is read as it is written, whatever ends it. By its first character it is
told from an array or a table, and a string or truth value from the rest; a date is told from a number by what stands
behind its first digits (`startsDateTime_text`, `startsDateTime_signedDecimal`). The digits of an integer have no
zero in front, so none of the other bases is taken for its beginning.

## Contents
- How values begin.
- Integers.
- Values without parts.
-/

namespace Esql.Document.Toml

open Esql.Number

variable {v : Toml} {rest cs : List Char}

/-! ## How values begin -/

/-- A character of one kind is none of some characters of another. -/
theorem not_mem_of_kind {kind : Char → Bool} {c : Char} (hc : kind c = true) {others : List Char}
    (h : others.all fun d => !kind d) : c ∉ others := by
  intro hmem
  have hother := List.all_eq_true.mp h c hmem
  rw [hc] at hother
  contradiction

/-- A text that begins as no blank, no comment, no end of a line and no end of an array or table does. -/
def Opens (cs : List Char) : Prop := ∃ c rest, cs = c :: rest ∧ c ∉ [' ', '\t', '\n', '\r', '#', ']', '\x7d']

theorem Opens.append (h : Opens cs) (rest : List Char) : Opens (cs ++ rest) := by
  obtain ⟨c, behind, rfl, hc⟩ := h
  exact ⟨c, behind ++ rest, rfl, hc⟩

theorem skipLines_opens (h : Opens cs) : skipLines false cs = cs := by
  obtain ⟨c, rest, rfl, hc⟩ := h
  simp only [List.mem_cons, List.not_mem_nil, or_false, not_or] at hc
  obtain ⟨hspace, htab, hfeed, hreturn, hcomment, -⟩ := hc
  simp [skipLines, hspace, htab, hreturn, hcomment]

theorem skipSpace_opens (h : Opens cs) : skipSpace cs = cs := by
  obtain ⟨c, rest, rfl, hc⟩ := h
  simp only [List.mem_cons, List.not_mem_nil, or_false, not_or] at hc
  exact skipSpace_cons hc.1 hc.2.1 rest

/-- A string begins with one of the two quotes. -/
theorem exists_quoted (s : String) : ∃ quote cs, quoted s = quote :: cs ∧ quote ∈ ['"', '\x27'] := by
  unfold quoted
  cases stringForm s.toList with
  | basicLine | basicText => exact ⟨'"', _, rfl, by decide⟩
  | literalLine | literalText => exact ⟨'\x27', _, rfl, by decide⟩

/-- An integer begins with a digit or with a minus sign. -/
theorem exists_signedDecimal (n : Int) : ∃ c cs, signedDecimal n = c :: cs ∧ (c.isDigit = true ∨ c = '-') := by
  cases n with
  | ofNat n =>
      obtain ⟨c, cs, htext⟩ := List.exists_cons_of_ne_nil (decimal_ne_nil n)
      exact ⟨c, cs, htext, .inl (isDigit_decimal (by rw [htext]; exact .head _))⟩
  | negSucc n => exact ⟨'-', _, rfl, .inr rfl⟩

/-- A date or time begins with a digit. -/
theorem exists_dateTimeText {d : DateTime} (h : d.Valid) : ∃ c cs, d.text = c :: cs ∧ c.isDigit = true := by
  cases h with
  | day hdate =>
      obtain ⟨a, b, x, y, cs, htext, hdigits⟩ := exists_dateText hdate
      exact ⟨a, _, htext, hdigits a (by simp)⟩
  | time htime =>
      obtain ⟨a, b, cs, htext, ha, -⟩ := exists_timeText htime
      exact ⟨a, _, htext, ha⟩
  | moment hdate htime hoffset =>
      obtain ⟨a, b, x, y, cs, htext, hdigits⟩ := exists_dateText hdate
      exact ⟨a, _, by rw [DateTime.text, htext]; rfl, hdigits a (by simp)⟩

/-! ## Integers -/

theorem EndsValue.notDigit (h : EndsValue rest) : ∀ c ∈ rest.head?, c.isDigit = false :=
  fun c hc => (h.endsFraction c hc).1

theorem digits?_digits {digits : List Char} (hne : digits ≠ []) (hall : ∀ c ∈ digits, c.isDigit = true)
    (hrest : EndsValue rest) : digits? Char.isDigit (digits ++ rest) = some (digits, rest) := by
  induction digits with
  | nil => contradiction
  | cons c digits ih =>
      have hc : c.isDigit = true := hall c (.head _)
      -- Behind the last digit stands no underscore either.
      cases digits with
      | nil => cases hrest <;> simp [digits?, hc]
      | cons d digits =>
          have hd : d.isDigit = true := hall d (.tail _ (.head _))
          have hscore : d ≠ '_' := by rintro rfl; contradiction
          have hmore := ih (List.cons_ne_nil d digits) fun x hx => hall x (.tail _ hx)
          rw [List.cons_append] at hmore
          simp [digits?, hc, hd, hscore, hmore]

theorem whole?_decimal (n : Nat) (hrest : EndsValue rest) : whole? (decimal n ++ rest) = some (decimal n, rest) := by
  by_cases hzero : n = 0
  · subst hzero
    rfl
  · have hread := digits?_digits (decimal_ne_nil n) (fun c => isDigit_decimal) hrest
    have hhead := head?_decimal (Nat.pos_of_ne_zero hzero)
    obtain ⟨c, cs, htext⟩ := List.exists_cons_of_ne_nil (decimal_ne_nil n)
    rw [htext] at hread hhead ⊢
    have hc : c ≠ '0' := fun heq => hhead (congrArg some heq)
    rw [← hread]
    simp [whole?, hc]

theorem fraction?_none (h : EndsValue rest) : fraction? rest = some (none, rest) := by
  cases h with
  | nothing | comma | bracket | brace => rfl

theorem exponent?_none (h : EndsValue rest) : exponent? rest = some (none, rest) := by
  cases h with
  | nothing | comma | bracket | brace => rfl

theorem decimal?_decimal (negative : Bool) (n : Nat) (hrest : EndsValue rest) :
    decimal? negative (decimal n ++ rest) =
      (integer? (if negative then -(n : Int) else n)).map fun v => (v, rest) := by
  have hwhole := whole?_decimal n hrest
  have hvalue := valueInBase_decimal n
  obtain ⟨c, cs, htext⟩ := List.exists_cons_of_ne_nil (decimal_ne_nil n)
  have hc : c ∉ ['i', 'n'] := not_mem_of_kind (isDigit_decimal (by rw [htext]; exact .head _)) (by decide)
  simp only [List.mem_cons, List.not_mem_nil, or_false, not_or] at hc
  rw [htext] at hwhole hvalue ⊢
  rw [List.cons_append] at hwhole ⊢
  simp [decimal?, hc.1, hc.2, hwhole, fraction?_none hrest, exponent?_none hrest, hvalue]
  cases integer? (if negative then -(n : Int) else n) <;> rfl

theorem number?_signedDecimal {n : Int} (hn : Int64.minValue.toInt ≤ n ∧ n ≤ Int64.maxValue.toInt)
    (hrest : EndsValue rest) : number? (signedDecimal n ++ rest) = some (integer n, rest) := by
  have hinteger : integer? n = some (integer n) := if_pos hn
  cases n with
  | ofNat n =>
      have hread := decimal?_decimal false n hrest
      have hplain : number? (decimal n ++ rest) = decimal? false (decimal n ++ rest) := by
        -- Only zero begins as the numbers of other bases do.
        by_cases hzero : n = 0
        · subst hzero
          cases hrest <;> rfl
        · have hhead := head?_decimal (Nat.pos_of_ne_zero hzero)
          obtain ⟨c, cs, htext⟩ := List.exists_cons_of_ne_nil (decimal_ne_nil n)
          have hc : c ∉ ['+', '-'] :=
            not_mem_of_kind (isDigit_decimal (by rw [htext]; exact .head _)) (by decide)
          simp only [List.mem_cons, List.not_mem_nil, or_false, not_or] at hc
          rw [htext] at hhead ⊢
          have hfirst : c ≠ '0' := fun heq => hhead (congrArg some heq)
          simp [number?, hfirst, sign, hc.1, hc.2]
      show number? (decimal n ++ rest) = _
      rw [hplain, hread]
      show (integer? (Int.ofNat n)).map _ = _
      rw [hinteger]
      rfl
  | negSucc n =>
      have hread := decimal?_decimal true (n + 1) hrest
      show decimal? true (decimal (n + 1) ++ rest) = _
      rw [hread]
      show (integer? (Int.negSucc n)).map _ = _
      rw [hinteger]
      rfl

theorem startsDateTime_signedDecimal (n : Int) (hrest : EndsValue rest) :
    startsDateTime (signedDecimal n ++ rest) = false := by
  cases n with
  | ofNat n =>
      obtain ⟨htake, hdrop⟩ := span_digits (fun c => @isDigit_decimal n c) hrest.notDigit
      show startsDateTime (decimal n ++ rest) = false
      rw [startsDateTime, List.span_eq_takeWhile_dropWhile, htake, hdrop]
      generalize decimal n = digits
      cases hrest <;> split <;> simp_all
  | negSucc n => rfl

/-! ## Values without parts -/

theorem startsDateTime_text {d : DateTime} (h : d.Valid) (rest : List Char) :
    startsDateTime (d.text ++ rest) = true := by
  have hdate {date : Date} (hdate : date.Valid) (rest : List Char) :
      startsDateTime (DateTime.dateText date ++ rest) = true := by
    obtain ⟨a, b, x, y, cs, htext, hdigits⟩ := exists_dateText hdate
    simp only [List.mem_cons, List.not_mem_nil, or_false, forall_eq_or_imp, forall_eq] at hdigits
    obtain ⟨ha, hb, hx, hy⟩ := hdigits
    rw [htext]
    simp [startsDateTime, List.span_eq_takeWhile_dropWhile, ha, hb, hx, hy]
  cases h with
  | day h => exact hdate h rest
  | time htime =>
      obtain ⟨a, b, cs, htext, ha, hb⟩ := exists_timeText htime
      show startsDateTime (DateTime.timeText _ ++ rest) = true
      rw [htext]
      simp [startsDateTime, List.span_eq_takeWhile_dropWhile, ha, hb]
  | @moment date time offset h htime hoffset =>
      have hwhole : (DateTime.moment date time offset).text ++ rest = DateTime.dateText date ++
          ('T' :: DateTime.timeText time ++ (offset.map DateTime.offsetText).getD [] ++ rest) := by
        simp [DateTime.text]
      rw [hwhole]
      exact hdate h _

/-- What begins as neither a string nor a truth value does is a date or time, or a number. -/
theorem scalar?_other {c : Char} (hc : c ∉ ['"', '\x27', 't', 'f']) (cs : List Char) :
    scalar? (c :: cs) =
      if startsDateTime (c :: cs) then (dateTime? (c :: cs)).map fun (d, cs) => (dateTime d, cs)
      else number? (c :: cs) := by
  simp only [List.mem_cons, List.not_mem_nil, or_false, not_or] at hc
  obtain ⟨hdouble, hsingle, ht, hf⟩ := hc
  simp [scalar?, hdouble, hsingle, ht, hf]

theorem value?_of_scalar? {n : Nat} {c : Char} (hc : c ∉ ['[', '\x7b'])
    (h : scalar? (c :: cs) = some (v, rest)) : value? n (c :: cs) = some (.value v, rest) := by
  simp only [List.mem_cons, List.not_mem_nil, or_false, not_or] at hc
  cases n with
  | zero => rw [value?, h]; rfl
  | succ n => simp [value?, hc.1, hc.2, h]

theorem EndsValue.noQuote (h : EndsValue rest) : NoQuote rest := by
  intro c hc
  obtain rfl | rfl | rfl := h.ne c hc
  all_goals decide

theorem value?_quoted (n : Nat) (s : String) (hrest : EndsValue rest) :
    value? n (quoted s ++ rest) = some (.value (string s), rest) := by
  have hread := string?_quoted s hrest.noQuote
  obtain ⟨quote, cs, htext, hquote⟩ := exists_quoted s
  rw [htext, List.cons_append] at hread ⊢
  simp only [List.mem_cons, List.not_mem_nil, or_false] at hquote
  obtain rfl | rfl := hquote
  all_goals exact value?_of_scalar? (by decide) (by rw [scalar?, hread]; rfl)

theorem value?_signedDecimal (n : Nat) {i : Int} (hi : Int64.minValue.toInt ≤ i ∧ i ≤ Int64.maxValue.toInt)
    (hrest : EndsValue rest) : value? n (signedDecimal i ++ rest) = some (.value (integer i), rest) := by
  have hread := number?_signedDecimal hi hrest
  have hstart := startsDateTime_signedDecimal i hrest
  obtain ⟨c, cs, htext, hc⟩ := exists_signedDecimal i
  have hother : c ∉ ['"', '\x27', 't', 'f', '[', '\x7b'] := by
    obtain hc | rfl := hc
    · exact not_mem_of_kind hc (by decide)
    · decide
  simp only [List.mem_cons, List.not_mem_nil, or_false, not_or] at hother
  rw [htext, List.cons_append] at hread hstart ⊢
  refine value?_of_scalar? (by simp [hother]) ?_
  rw [scalar?_other (by simp [hother]), hstart, hread]
  rfl

theorem value?_booleanText (n : Nat) (b : Bool) (rest : List Char) :
    value? n (booleanText b ++ rest) = some (.value (boolean b), rest) := by
  cases b with
  | true => exact value?_of_scalar? (by decide) rfl
  | false => exact value?_of_scalar? (by decide) rfl

theorem value?_dateTimeText (n : Nat) {d : DateTime} (hd : d.Valid) (hrest : EndsValue rest) :
    value? n (d.text ++ rest) = some (.value (dateTime d), rest) := by
  have hread := dateTime?_text hd hrest
  have hstart := startsDateTime_text hd rest
  obtain ⟨c, cs, htext, hc⟩ := exists_dateTimeText hd
  rw [htext, List.cons_append] at hread hstart ⊢
  refine value?_of_scalar? (not_mem_of_kind hc (by decide)) ?_
  rw [scalar?_other (not_mem_of_kind hc (by decide)), hstart, hread]
  rfl

end Esql.Document.Toml
