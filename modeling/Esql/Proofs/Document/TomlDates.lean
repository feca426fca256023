import Esql.Document.Toml
import Esql.Proofs.Number.Digits
import Mathlib.Data.List.Induction
import Mathlib.Data.List.TakeWhile

/-!
# `Proofs.Document.TomlDates` — dates and times are read as they are written

Whatever is read as a date or time is one that there is: no month is the thirteenth, no fraction makes up a second
(`valid_of_dateTime?`). Such a date or time is read again as it was written, behind it being what can stand behind a
value (`dateTime?_text`).

A number of two digits is read off as one; a year is two of them. A fraction is written without the zeros at its end,
and these are what reading puts back (`fraction_text`).

## Contents
- `Date.Valid` and its like, and what is read.
- `EndsValue`, what stands behind a value.
- Dates, times and offsets, read as they are written.
-/

namespace Esql.Document.Toml

open Esql.Number

variable {cs rest : List Char}

/-! ## Dates and times that there are -/

/-- A day that its month has. -/
structure Date.Valid (d : Date) : Prop where
  year : d.year ≤ 9999
  month : 1 ≤ d.month ∧ d.month ≤ 12
  day : 1 ≤ d.day ∧ d.day ≤ daysInMonth d.year d.month

/-- A time that a day has; there may be a leap second. -/
structure Time.Valid (t : Time) : Prop where
  hour : t.hour ≤ 23
  minute : t.minute ≤ 59
  second : t.second ≤ 60
  nanosecond : t.nanosecond < 10 ^ 9

/-- An offset of less than a day. -/
def Offset.Valid : Offset → Prop
  | .utc => True
  | .minutes n => n.natAbs < 24 * 60

inductive DateTime.Valid : DateTime → Prop
  | day {date : Date} : date.Valid → Valid (.day date)
  | time {time : Time} : time.Valid → Valid (.time time)
  | moment {date : Date} {time : Time} {offset : Option Offset} :
      date.Valid → time.Valid → (∀ o ∈ offset, o.Valid) → Valid (.moment date time offset)

/-! ## What is read -/

/-- What a reader gives in another form, it has read before. -/
theorem exists_of_map {α β : Type} {f : α → β} {read : Option (α × List Char)} {b : β}
    (h : (read.map fun (a, cs) => (f a, cs)) = some (b, rest)) : ∃ a, read = some (a, rest) ∧ f a = b := by
  obtain ⟨⟨a, after⟩, hread, heq⟩ := Option.map_eq_some_iff.mp h
  obtain ⟨ha, rfl⟩ := Prod.mk.inj heq
  exact ⟨a, hread, ha⟩

theorem digitValue_le {c : Char} (h : c.isDigit = true) : digitValue c ≤ 9 := by
  have hdigit : '0'.toNat ≤ c.toNat ∧ c.toNat ≤ '9'.toNat := Char.isDigit_iff_toNat.mp h
  have hzero : '0'.toNat = 48 := rfl
  have hnine : '9'.toNat = 57 := rfl
  rw [digitValue, if_pos h]
  omega

theorem valueInBase_lt {digits : List Char} (h : ∀ c ∈ digits, c.isDigit = true) :
    valueInBase 10 digits < 10 ^ digits.length := by
  induction digits using List.reverseRecOn with
  | nil => exact Nat.one_pos
  | append_singleton digits c ih =>
      have hfront := ih fun d hd => h d (List.mem_append_left _ hd)
      have hc := digitValue_le (h c (by simp))
      rw [valueInBase_append_one, List.length_append, List.length_singleton, Nat.pow_succ]
      omega

theorem bounds_of_twoDigits? {low high n : Nat} (h : twoDigits? low high cs = some (n, rest)) :
    low ≤ n ∧ n ≤ high := by
  unfold twoDigits? at h
  split at h
  · dsimp only at h
    split at h
    · rename_i hn
      obtain ⟨rfl, -⟩ := Prod.mk.inj (Option.some.inj h)
      exact ⟨hn.2.2.1, hn.2.2.2⟩
    · contradiction
  · contradiction

theorem valid_of_date? {d : Date} (h : date? cs = some (d, rest)) : d.Valid := by
  simp only [date?, Option.bind_eq_bind, Option.bind_eq_some_iff, Prod.exists, Option.pure_def, Option.some.injEq,
    Prod.mk.injEq] at h
  obtain ⟨century, _, hcentury, year, _, hyear, _, -, month, _, hmonth, _, -, day, _, hday, rfl, -⟩ := h
  have hcentury := bounds_of_twoDigits? hcentury
  have hyear := bounds_of_twoDigits? hyear
  exact ⟨by dsimp only; omega, bounds_of_twoDigits? hmonth, bounds_of_twoDigits? hday⟩

/-- A fraction of a second is less than a second: only its first nine digits count. -/
theorem fraction_lt (cs : List Char) : (fraction cs).1 < 10 ^ 9 := by
  unfold fraction
  split
  · rename_i behind
    split
    · exact Nat.pow_pos (by decide)
    · rename_i digits hdigits _
      have hall : ∀ c ∈ (behind.takeWhile Char.isDigit).take 9, c.isDigit = true := fun c hc =>
        List.mem_takeWhile_imp (List.mem_of_mem_take hc)
      have hlt := valueInBase_lt hall
      have hlength : ((behind.takeWhile Char.isDigit).take 9).length ≤ 9 := List.length_take_le _ _
      show _ * 10 ^ _ < 10 ^ 9
      calc
        _ < 10 ^ ((behind.takeWhile Char.isDigit).take 9).length *
              10 ^ (9 - ((behind.takeWhile Char.isDigit).take 9).length) :=
            Nat.mul_lt_mul_of_pos_right hlt (Nat.pow_pos (by decide))
        _ = 10 ^ 9 := by rw [← Nat.pow_add, Nat.add_sub_cancel' hlength]
  · exact Nat.pow_pos (by decide)

theorem valid_of_time? {t : Time} (h : time? cs = some (t, rest)) : t.Valid := by
  simp only [time?, Option.bind_eq_bind, Option.bind_eq_some_iff, Prod.exists, Option.pure_def, Option.some.injEq,
    Prod.mk.injEq] at h
  obtain ⟨hour, _, hhour, _, -, minute, _, hminute, _, -, second, behind, hsecond, rfl, -⟩ := h
  exact ⟨(bounds_of_twoDigits? hhour).2, (bounds_of_twoDigits? hminute).2, (bounds_of_twoDigits? hsecond).2,
    fraction_lt behind⟩

theorem lt_of_offsetMinutes? {n : Nat} (h : offsetMinutes? cs = some (n, rest)) : n < 24 * 60 := by
  simp only [offsetMinutes?, Option.bind_eq_bind, Option.bind_eq_some_iff, Prod.exists, Option.pure_def,
    Option.some.injEq, Prod.mk.injEq] at h
  obtain ⟨hour, _, hhour, _, -, minute, _, hminute, rfl, -⟩ := h
  have hhour := bounds_of_twoDigits? hhour
  have hminute := bounds_of_twoDigits? hminute
  omega

theorem valid_of_offset? {offset : Option Offset} (h : offset? cs = some (offset, rest)) : ∀ o ∈ offset, o.Valid := by
  intro o ho
  obtain rfl : offset = some o := ho
  unfold offset? at h
  split at h
  · obtain ⟨hutc, -⟩ := Prod.mk.inj (Option.some.inj h)
    obtain rfl := Option.some.inj hutc
    trivial
  · obtain ⟨hutc, -⟩ := Prod.mk.inj (Option.some.inj h)
    obtain rfl := Option.some.inj hutc
    trivial
  · obtain ⟨n, hn, hminutes⟩ := exists_of_map (f := fun n : Nat => some (Offset.minutes n)) h
    obtain rfl := Option.some.inj hminutes
    exact lt_of_offsetMinutes? hn
  · obtain ⟨n, hn, hminutes⟩ := exists_of_map (f := fun n : Nat => some (Offset.minutes (-n))) h
    obtain rfl := Option.some.inj hminutes
    show (-(n : Int)).natAbs < 24 * 60
    rw [Int.natAbs_neg, Int.natAbs_natCast]
    exact lt_of_offsetMinutes? hn
  · simp at h

theorem valid_of_timeOfDay? {t : Time} {offset : Option Offset} (h : timeOfDay? cs = some (t, offset, rest)) :
    t.Valid ∧ ∀ o ∈ offset, o.Valid := by
  unfold timeOfDay? at h
  split at h
  · split at h
    · simp only [Option.bind_eq_bind, Option.bind_eq_some_iff, Prod.exists, Option.pure_def, Option.some.injEq,
        Prod.mk.injEq] at h
      obtain ⟨time, _, htime, _, _, hoffset, rfl, rfl, -⟩ := h
      exact ⟨valid_of_time? htime, valid_of_offset? hoffset⟩
    · contradiction
  · contradiction

/-- What is read as a date or time is one that there is. -/
theorem valid_of_dateTime? {d : DateTime} (h : dateTime? cs = some (d, rest)) : d.Valid := by
  unfold dateTime? at h
  split at h
  · obtain ⟨t, ht, rfl⟩ := exists_of_map h
    exact .time (valid_of_time? ht)
  · obtain ⟨⟨date, behind⟩, hdate, hrest⟩ := Option.bind_eq_some_iff.mp h
    dsimp only at hrest
    split at hrest
    · rename_i htime
      obtain ⟨rfl, -⟩ := Prod.mk.inj (Option.some.inj hrest)
      exact .moment (valid_of_date? hdate) (valid_of_timeOfDay? htime).1 (valid_of_timeOfDay? htime).2
    · obtain ⟨rfl, -⟩ := Prod.mk.inj (Option.some.inj hrest)
      exact .day (valid_of_date? hdate)

theorem valid_of_dateTimeOfString? {s : String} {d : DateTime} (h : dateTimeOfString? s = some d) : d.Valid := by
  unfold dateTimeOfString? at h
  split at h
  · rename_i hread
    obtain rfl : _ = d := by simpa using h
    exact valid_of_dateTime? hread
  · contradiction

/-! ## What stands behind a value -/

/-- A text behind a value that is written inside a table or array, or by itself. -/
inductive EndsValue : List Char → Prop
  | nothing : EndsValue []
  | comma (rest : List Char) : EndsValue (',' :: rest)
  | bracket (rest : List Char) : EndsValue (']' :: rest)
  | brace (rest : List Char) : EndsValue (' ' :: '\x7d' :: rest)

/-- A value is not followed by more of a number. -/
theorem EndsValue.ne (h : EndsValue rest) : ∀ c ∈ rest.head?, c = ',' ∨ c = ']' ∨ c = ' ' := by
  intro c hc
  cases h with
  | nothing => contradiction
  | comma => exact .inl (Option.some.inj hc).symm
  | bracket => exact .inr (.inl (Option.some.inj hc).symm)
  | brace => exact .inr (.inr (Option.some.inj hc).symm)

/-! ## Numbers of two digits -/

theorem exists_twoDigits {n : Nat} (h : n ≤ 99) :
    ∃ a b, decimalOfWidth 2 n = [a, b] ∧ a.isDigit = true ∧ b.isDigit = true ∧ valueInBase 10 [a, b] = n := by
  have hlength : (decimalOfWidth 2 n).length = 2 := length_decimalOfWidth (by decide) (by omega)
  match htext : decimalOfWidth 2 n, hlength with
  | [a, b], _ =>
      have hall : ∀ c ∈ [a, b], c.isDigit = true := fun c hc => isDigit_decimalOfWidth (htext ▸ hc)
      refine ⟨a, b, rfl, hall a (by simp), hall b (by simp), ?_⟩
      rw [← htext, valueInBase_decimalOfWidth]

theorem twoDigits?_decimalOfWidth {low high n : Nat} (hlow : low ≤ n) (hhigh : n ≤ high) (h : n ≤ 99)
    (rest : List Char) : twoDigits? low high (decimalOfWidth 2 n ++ rest) = some (n, rest) := by
  obtain ⟨a, b, htext, ha, hb, hvalue⟩ := exists_twoDigits h
  rw [htext]
  show twoDigits? low high (a :: b :: rest) = some (n, rest)
  simp [twoDigits?, ha, hb, hvalue, hlow, hhigh]

/-- A year is written in four digits, the first two and the last two of which are numbers on their own. -/
theorem exists_fourDigits {n : Nat} (h : n ≤ 9999) :
    ∃ a b c d, decimalOfWidth 4 n = [a, b, c, d] ∧ (∀ x ∈ [a, b, c, d], x.isDigit = true) ∧
      valueInBase 10 [a, b] * 100 + valueInBase 10 [c, d] = n := by
  have hlength : (decimalOfWidth 4 n).length = 4 := length_decimalOfWidth (by decide) (by omega)
  match htext : decimalOfWidth 4 n, hlength with
  | [a, b, c, d], _ =>
      refine ⟨a, b, c, d, rfl, fun x hx => isDigit_decimalOfWidth (htext ▸ hx), ?_⟩
      have hvalue : valueInBase 10 [a, b, c, d] = n := by rw [← htext, valueInBase_decimalOfWidth]
      rw [← hvalue]
      simp [valueInBase]
      omega

theorem twoDigits?_digits {a b : Char} (ha : a.isDigit = true) (hb : b.isDigit = true) (rest : List Char) :
    twoDigits? 0 99 (a :: b :: rest) = some (valueInBase 10 [a, b], rest) := by
  have hlt : valueInBase 10 [a, b] < 10 ^ 2 := valueInBase_lt (by simp [ha, hb])
  simp [twoDigits?, ha, hb, Nat.lt_succ_iff.mp hlt]

/-! ## Dates -/

theorem daysInMonth_le (year month : Nat) : daysInMonth year month ≤ 31 := by
  unfold daysInMonth
  repeat' split
  all_goals decide

theorem date?_text {d : Date} (h : d.Valid) (rest : List Char) :
    date? (DateTime.dateText d ++ rest) = some (d, rest) := by
  obtain ⟨a, b, x, y, htext, hdigits, hyear⟩ := exists_fourDigits h.year
  have hmonth := twoDigits?_decimalOfWidth h.month.1 h.month.2 (Nat.le_trans h.month.2 (by decide))
    ('-' :: (decimalOfWidth 2 d.day ++ rest))
  have hday := twoDigits?_decimalOfWidth h.day.1 h.day.2
    (Nat.le_trans h.day.2 (Nat.le_trans (daysInMonth_le _ _) (by decide))) rest
  have hcentury := twoDigits?_digits (hdigits a (by simp)) (hdigits b (by simp))
    (x :: y :: '-' :: (decimalOfWidth 2 d.month ++ '-' :: (decimalOfWidth 2 d.day ++ rest)))
  have hlast := twoDigits?_digits (hdigits x (by simp)) (hdigits y (by simp))
    ('-' :: (decimalOfWidth 2 d.month ++ '-' :: (decimalOfWidth 2 d.day ++ rest)))
  have hwhole : DateTime.dateText d ++ rest =
      a :: b :: x :: y :: '-' :: (decimalOfWidth 2 d.month ++ '-' :: (decimalOfWidth 2 d.day ++ rest)) := by
    simp [DateTime.dateText, htext]
  simp [date?, hwhole, hcentury, hlast, behind?, hmonth, hyear, hday]

/-! ## Times -/

/-- The zeros at the end of a row of digits. -/
theorem exists_zeros (digits : List Char) :
    ∃ k, digits = (digits.reverse.dropWhile (· = '0')).reverse ++ List.replicate k '0' := by
  have hzeros : ∀ c ∈ digits.reverse.takeWhile (· = '0'), c = '0' := fun c hc => by
    simpa using List.mem_takeWhile_imp hc
  refine ⟨(digits.reverse.takeWhile (· = '0')).length, ?_⟩
  calc digits
    _ = (digits.reverse.takeWhile (· = '0') ++ digits.reverse.dropWhile (· = '0')).reverse := by
        rw [List.takeWhile_append_dropWhile, List.reverse_reverse]
    _ = (digits.reverse.dropWhile (· = '0')).reverse ++ (digits.reverse.takeWhile (· = '0')).reverse :=
        List.reverse_append
    _ = _ := by
        rw [← List.reverse_replicate, ← List.eq_replicate_of_mem hzeros]

theorem valueInBase_append_zeros (digits : List Char) (k : Nat) :
    valueInBase 10 (digits ++ List.replicate k '0') = valueInBase 10 digits * 10 ^ k := by
  induction k with
  | zero => simp
  | succ k ih =>
      have hzero : digitValue '0' = 0 := rfl
      rw [List.replicate_succ', ← List.append_assoc, valueInBase_append_one, ih, hzero, Nat.pow_succ, Nat.mul_assoc,
        Nat.add_zero]

/-- What stands behind a fraction of a second. -/
def EndsFraction (rest : List Char) : Prop := ∀ c ∈ rest.head?, c.isDigit = false ∧ c ≠ '.'

theorem EndsValue.endsFraction (h : EndsValue rest) : EndsFraction rest := by
  intro c hc
  obtain rfl | rfl | rfl := h.ne c hc
  all_goals decide

/-- Digits are read up to what ends them. -/
theorem span_digits {digits : List Char} (hall : ∀ c ∈ digits, c.isDigit = true)
    (hrest : ∀ c ∈ rest.head?, c.isDigit = false) :
    (digits ++ rest).takeWhile Char.isDigit = digits ∧ (digits ++ rest).dropWhile Char.isDigit = rest := by
  rw [List.takeWhile_append_of_pos hall, List.dropWhile_append_of_pos hall]
  cases rest with
  | nil => simp
  | cons c rest =>
      have hc : c.isDigit = false := hrest c rfl
      simp [hc]

theorem fraction_digits {digits : List Char} (hne : digits ≠ []) (hall : ∀ c ∈ digits, c.isDigit = true)
    (hrest : EndsFraction rest) :
    fraction ('.' :: (digits ++ rest)) =
      (valueInBase 10 (digits.take 9) * 10 ^ (9 - (digits.take 9).length), rest) := by
  obtain ⟨htake, hdrop⟩ := span_digits hall fun c hc => (hrest c hc).1
  generalize digits ++ rest = text at htake hdrop ⊢
  cases digits with
  | nil => contradiction
  | cons c digits => simp [fraction, htake, hdrop]

/-- A fraction is read as it is written: the zeros left out at its end are those that make it nanoseconds again. -/
theorem fraction_text {n : Nat} (hn : n < 10 ^ 9) (hrest : EndsFraction rest) :
    fraction (DateTime.fractionText n ++ rest) = (n, rest) := by
  unfold DateTime.fractionText
  split
  · rename_i hzero
    rw [hzero, List.nil_append]
    cases rest with
    | nil => rfl
    | cons c rest => simp [fraction, (hrest c rfl).2]
  · rename_i hzero
    obtain ⟨k, hk⟩ := exists_zeros (decimalOfWidth 9 n)
    generalize ((decimalOfWidth 9 n).reverse.dropWhile (· = '0')).reverse = short at hk ⊢
    have hlength : short.length + k = 9 := by
      have hwidth := length_decimalOfWidth (show 0 < 9 by decide) hn
      rwa [hk, List.length_append, List.length_replicate] at hwidth
    have hvalue : valueInBase 10 short * 10 ^ k = n := by
      rw [← valueInBase_append_zeros, ← hk, valueInBase_decimalOfWidth]
    have hall : ∀ c ∈ short, c.isDigit = true := fun c hc =>
      isDigit_decimalOfWidth (hk ▸ List.mem_append_left _ hc)
    have hne : short ≠ [] := by
      rintro rfl
      exact hzero (by rw [← hvalue]; simp [valueInBase])
    have hnine : short.take 9 = short := List.take_of_length_le (by omega)
    have hplaces : 9 - short.length = k := by omega
    show fraction ('.' :: (short ++ rest)) = (n, rest)
    rw [fraction_digits hne hall hrest, hnine, hplaces, hvalue]

theorem time?_text {t : Time} (h : t.Valid) (hrest : EndsFraction rest) :
    time? (DateTime.timeText t ++ rest) = some (t, rest) := by
  have hhour := twoDigits?_decimalOfWidth (Nat.zero_le _) h.hour (Nat.le_trans h.hour (by decide))
    (':' :: (decimalOfWidth 2 t.minute ++ ':' :: (decimalOfWidth 2 t.second ++
      (DateTime.fractionText t.nanosecond ++ rest))))
  have hminute := twoDigits?_decimalOfWidth (Nat.zero_le _) h.minute (Nat.le_trans h.minute (by decide))
    (':' :: (decimalOfWidth 2 t.second ++ (DateTime.fractionText t.nanosecond ++ rest)))
  have hsecond := twoDigits?_decimalOfWidth (Nat.zero_le _) h.second (Nat.le_trans h.second (by decide))
    (DateTime.fractionText t.nanosecond ++ rest)
  have hwhole : DateTime.timeText t ++ rest = decimalOfWidth 2 t.hour ++ ':' :: (decimalOfWidth 2 t.minute ++
      ':' :: (decimalOfWidth 2 t.second ++ (DateTime.fractionText t.nanosecond ++ rest))) := by
    simp [DateTime.timeText]
  simp [time?, hwhole, hhour, behind?, hminute, hsecond, fraction_text h.nanosecond hrest]

/-! ## Offsets -/

theorem offset?_text {o : Offset} (h : o.Valid) (rest : List Char) :
    offset? (DateTime.offsetText o ++ rest) = some (some o, rest) := by
  cases o with
  | utc => rfl
  | minutes n =>
      have hbound : n.natAbs < 24 * 60 := h
      have hminute := twoDigits?_decimalOfWidth (Nat.zero_le (n.natAbs % 60)) (show n.natAbs % 60 ≤ 59 by omega)
        (by omega) rest
      have hhour := twoDigits?_decimalOfWidth (Nat.zero_le (n.natAbs / 60)) (show n.natAbs / 60 ≤ 23 by omega)
        (by omega) (':' :: (decimalOfWidth 2 (n.natAbs % 60) ++ rest))
      have hminutes : offsetMinutes? (decimalOfWidth 2 (n.natAbs / 60) ++
          ':' :: (decimalOfWidth 2 (n.natAbs % 60) ++ rest)) = some (n.natAbs, rest) := by
        have hsum : n.natAbs / 60 * 60 + n.natAbs % 60 = n.natAbs := by omega
        simp [offsetMinutes?, hhour, behind?, hminute, hsum]
      by_cases hneg : n < 0
      · have hn : -(n.natAbs : Int) = n := by omega
        simp only [DateTime.offsetText, if_pos hneg, List.cons_append, List.append_assoc, offset?, hminutes,
          Option.map_some, hn]
      · have hn : (n.natAbs : Int) = n := by omega
        simp only [DateTime.offsetText, if_neg hneg, List.cons_append, List.append_assoc, offset?, hminutes,
          Option.map_some, hn]

theorem offset?_none (h : EndsValue rest) : offset? rest = some (none, rest) := by
  cases h with
  | nothing | comma | bracket | brace => rfl

/-- No offset begins as a fraction goes on. -/
theorem endsFraction_offset {offset : Option Offset} (h : EndsValue rest) :
    EndsFraction ((offset.map DateTime.offsetText).getD [] ++ rest) := by
  cases offset with
  | none => exact h.endsFraction
  | some o =>
      intro c hc
      cases o with
      | utc =>
          obtain rfl : 'Z' = c := Option.some.inj hc
          decide
      | minutes n =>
          obtain rfl : (if n < 0 then '-' else '+') = c := Option.some.inj hc
          split <;> decide

/-! ## Both -/

theorem timeOfDay?_text {t : Time} {offset : Option Offset} (ht : t.Valid) (ho : ∀ o ∈ offset, o.Valid)
    (hrest : EndsValue rest) :
    timeOfDay? ('T' :: (DateTime.timeText t ++ ((offset.map DateTime.offsetText).getD [] ++ rest))) =
      some (t, offset, rest) := by
  have htime := time?_text ht (@endsFraction_offset rest offset hrest)
  have hoffset : offset? ((offset.map DateTime.offsetText).getD [] ++ rest) = some (offset, rest) := by
    cases offset with
    | none => exact offset?_none hrest
    | some o => exact offset?_text (ho o rfl) rest
  simp [timeOfDay?, htime, hoffset]

/-- What ends a value is not taken for a time behind a date, although a blank may separate the two. -/
theorem timeOfDay?_none (h : EndsValue rest) : timeOfDay? rest = none := by
  cases h with
  | nothing | comma | bracket => rfl
  | brace rest =>
      cases rest <;> simp [timeOfDay?, time?, twoDigits?]

/-- How the text of a date begins. -/
theorem exists_dateText {d : Date} (h : d.Valid) :
    ∃ a b x y cs, DateTime.dateText d = a :: b :: x :: y :: '-' :: cs ∧
      ∀ c ∈ [a, b, x, y], c.isDigit = true := by
  obtain ⟨a, b, x, y, htext, hdigits, -⟩ := exists_fourDigits h.year
  exact ⟨a, b, x, y, _, by rw [DateTime.dateText, htext]; rfl, hdigits⟩

/-- How the text of a time begins. -/
theorem exists_timeText {t : Time} (h : t.Valid) :
    ∃ a b cs, DateTime.timeText t = a :: b :: ':' :: cs ∧ a.isDigit = true ∧ b.isDigit = true := by
  obtain ⟨a, b, htext, ha, hb, -⟩ := exists_twoDigits (Nat.le_trans h.hour (by decide))
  exact ⟨a, b, _, by rw [DateTime.timeText, htext]; rfl, ha, hb⟩

/-- A text that begins with four digits is no time. -/
theorem dateTime?_digits {a b x : Char} (hx : x.isDigit = true) (cs : List Char) :
    dateTime? (a :: b :: x :: cs) = (do
      let (date, cs) ← date? (a :: b :: x :: cs)
      match timeOfDay? cs with
      | some (time, offset, cs) => return (.moment date time offset, cs)
      | none => return (.day date, cs)) := by
  unfold dateTime?
  split
  · rename_i htext
    obtain ⟨-, -, rfl, -⟩ : _ ∧ _ ∧ _ ∧ _ := by simpa using htext
    contradiction
  · rfl

/-- A date or time is read as it is written. -/
theorem dateTime?_text {d : DateTime} (h : d.Valid) (hrest : EndsValue rest) :
    dateTime? (d.text ++ rest) = some (d, rest) := by
  cases h with
  | @day date hdate =>
      obtain ⟨a, b, x, y, cs, htext, hdigits⟩ := exists_dateText hdate
      have hread := date?_text hdate rest
      show dateTime? (DateTime.dateText date ++ rest) = _
      rw [htext, List.cons_append, List.cons_append, List.cons_append] at hread ⊢
      rw [dateTime?_digits (hdigits x (by simp)), hread]
      simp [timeOfDay?_none hrest]
  | @time time htime =>
      obtain ⟨a, b, cs, htext, -⟩ := exists_timeText htime
      have hread := time?_text htime hrest.endsFraction
      show dateTime? (DateTime.timeText time ++ rest) = _
      rw [htext] at hread ⊢
      show (time? (a :: b :: ':' :: cs ++ rest)).map _ = _
      rw [hread]
      rfl
  | @moment date time offset hdate htime hoffset =>
      obtain ⟨a, b, x, y, cs, htext, hdigits⟩ := exists_dateText hdate
      have hread := date?_text hdate
        ('T' :: (DateTime.timeText time ++ ((offset.map DateTime.offsetText).getD [] ++ rest)))
      have hwhole : (DateTime.moment date time offset).text ++ rest = DateTime.dateText date ++
          'T' :: (DateTime.timeText time ++ ((offset.map DateTime.offsetText).getD [] ++ rest)) := by
        simp [DateTime.text]
      rw [hwhole]
      rw [htext, List.cons_append, List.cons_append, List.cons_append] at hread ⊢
      rw [dateTime?_digits (hdigits x (by simp)), hread]
      simp [timeOfDay?_text htime hoffset hrest]

theorem dateTimeOfString?_text {d : DateTime} (h : d.Valid) : dateTimeOfString? (String.ofList d.text) = some d := by
  have hread := dateTime?_text h .nothing
  rw [List.append_nil] at hread
  rw [dateTimeOfString?, String.toList_ofList, hread]

end Esql.Document.Toml
