import Esql.Proofs.Document.TomlText

/-!
# `Proofs.Document.TomlStrings` — strings and keys in every form

A string is written in one of four forms, chosen by what it holds, and whatever the choice is, it is read as it was
(`string?_quoted`). For each form this takes what the choice guarantees (`Suits`): no escapes are needed where the form
has none, and no quotes in a row close the string early. A string of several lines may end with quotes of its own;
they stand before the closing ones, and up to two quotes behind three others belong to the string (`closeText_run`).

Keys are written likewise, or bare (`keyPart?_keyText`).

## Contents
- `Suits`, what is known of a string by its form.
- Strings without escapes, on one line and on several.
- Strings with escapes on several lines.
- All strings, and keys.
-/

namespace Esql.Document.Toml

variable {cs done rest : List Char} {c quote : Char}

/-! ## The choice of a form -/

/-- What a form without escapes asks of a string. -/
inductive Suits (cs : List Char) : StringForm → Prop
  | basicLine : Suits cs .basicLine
  | literalLine : cs ≠ [] → (∀ c ∈ cs, isPrintable c = true ∧ c ≠ '\x27') → Suits cs .literalLine
  | basicText : Suits cs .basicText
  | literalText : (∀ c ∈ cs, c = '\n' ∨ isPrintable c = true) → hasTriple '\x27' cs = false → Suits cs .literalText

/-- Only the line feed is neither printable nor a control character. -/
theorem printable_of_free (h : cs.any isControl = false) : ∀ c ∈ cs, c = '\n' ∨ isPrintable c = true := by
  intro c hc
  have hcontrol : isControl c = false := by
    have hall := List.any_eq_false.mp h c hc
    simpa using hall
  by_cases hfeed : c = '\n'
  · exact .inl hfeed
  · right
    by_cases htab : c = '\t'
    · simp [isPrintable, htab]
    · simp only [isControl, isPrintable, Bool.or_eq_false_iff, Bool.and_eq_false_iff, decide_eq_false_iff_not,
        Bool.or_eq_true, Bool.and_eq_true, decide_eq_true_eq] at hcontrol ⊢
      obtain ⟨hlow, hdelete⟩ := hcontrol
      refine .inr ⟨?_, hdelete⟩
      simp [htab, hfeed] at hlow
      exact hlow

theorem suits_stringForm (cs : List Char) : Suits cs (stringForm cs) := by
  unfold stringForm
  by_cases hfree : cs.any isControl = false
  · have hprintable := printable_of_free hfree
    simp only [hfree, Bool.not_false, Bool.true_and]
    split
    · exact .basicLine
    · rename_i hbasic
      split
      · rename_i hliteral
        simp only [Bool.and_eq_true, Bool.not_eq_true', List.contains_eq_mem, decide_eq_false_iff_not] at hliteral
        refine .literalLine ?_ fun c hc => ⟨?_, ?_⟩
        · rintro rfl
          exact hbasic rfl
        · refine (hprintable c hc).resolve_left ?_
          rintro rfl
          exact hliteral.2 hc
        · rintro rfl
          exact hliteral.1 hc
      · split
        · exact .basicText
        · split
          · rename_i htriple
            exact .literalText hprintable (by simpa using htriple)
          · split
            · exact .basicText
            · exact .basicLine
  · have hcontrol : cs.any isControl = true := by simpa using hfree
    simp only [hcontrol, Bool.not_true, Bool.false_and, Bool.false_eq_true, if_false]
    split
    · exact .basicText
    · exact .basicLine

/-! ## Strings on one line without escapes -/

theorem literalLine?_written (hcs : ∀ c ∈ cs, isPrintable c = true ∧ c ≠ '\x27') (done rest : List Char) :
    literalLine? done (cs ++ '\x27' :: rest) = some (String.ofList (done.reverse ++ cs), rest) := by
  induction cs generalizing done with
  | nil => simp [literalLine?]
  | cons c cs ih =>
      obtain ⟨⟨hprintable, hquote⟩, hrest⟩ := List.forall_mem_cons.mp hcs
      rw [List.cons_append, literalLine?, if_neg hquote, if_pos hprintable, ih hrest]
      simp

/-! ## Closing quotes -/

/-- Quotes in front of the closing ones belong to the string, if there are at most two. -/
theorem closeText_run (hrest : ∀ c ∈ rest.head?, c ≠ quote) {n : Nat} (hn : n ≤ 2) (done : List Char) :
    closeText quote done (List.replicate n quote ++ rest) =
      (String.ofList (done.reverse ++ List.replicate n quote), rest) := by
  have hhead : (rest.take 2).takeWhile (fun c => decide (c = quote)) = [] := by
    cases rest with
    | nil => rfl
    | cons c rest => simp [hrest c rfl]
  have hextra : ((List.replicate n quote ++ rest).take 2).takeWhile (fun c => decide (c = quote)) =
      List.replicate n quote := by
    match n with
    | 0 => exact hhead
    | 1 =>
        cases rest with
        | nil => simp
        | cons c rest => simp [hrest c rfl]
    | 2 => simp [List.replicate]
  have hdrop : (List.replicate n quote ++ rest).drop n = rest := List.drop_left' List.length_replicate
  unfold closeText
  rw [hextra, List.length_replicate]
  dsimp only
  rw [hdrop, List.reverse_append, List.reverse_replicate]

/-- Three closing quotes behind a quote of the string, and so on: how a text goes on that ends a string. -/
theorem run_append_triple (n : Nat) (quote : Char) (rest : List Char) :
    List.replicate n quote ++ quote :: quote :: quote :: rest =
      quote :: quote :: quote :: (List.replicate n quote ++ rest) := by
  induction n with
  | zero => rfl
  | succ n ih => rw [List.replicate_succ, List.cons_append, ih, List.cons_append]

/-! ## Strings on several lines without escapes -/

theorem literalText?_close (hrest : ∀ c ∈ rest.head?, c ≠ '\x27') {n : Nat} (hn : n ≤ 2) (done : List Char) :
    literalText? done (List.replicate n '\x27' ++ '\x27' :: '\x27' :: '\x27' :: rest) =
      some (String.ofList (done.reverse ++ List.replicate n '\x27'), rest) := by
  rw [run_append_triple, literalText?, closeText_run hrest hn]

/-- A character that is taken by itself, as three quotes do not begin with it. -/
theorem literalText?_cons (hc : c = '\n' ∨ isPrintable c = true)
    (h : ∀ more, c :: cs ≠ '\x27' :: '\x27' :: '\x27' :: more) (done : List Char) :
    literalText? done (c :: cs) = literalText? (c :: done) cs := by
  have hreturn : c ≠ '\r' := by
    rintro rfl
    revert hc
    decide
  rw [literalText?]
  · rcases hc with rfl | hc
    · simp
    · simp [hc]
  · intro more hquote hmore
    exact h more (by rw [hquote, hmore])
  · intro more hquote
    exact absurd hquote hreturn

/-- By induction on the string: a character is taken by itself, unless it is the last or the last but one of a string
    that ends with quotes. -/
theorem literalText?_written (hcs : ∀ c ∈ cs, c = '\n' ∨ isPrintable c = true) (htriple : hasTriple '\x27' cs = false)
    (hrest : ∀ c ∈ rest.head?, c ≠ '\x27') (done : List Char) :
    literalText? done (cs ++ '\x27' :: '\x27' :: '\x27' :: rest) =
      some (String.ofList (done.reverse ++ cs), rest) := by
  induction cs generalizing done with
  | nil => simpa using literalText?_close hrest (Nat.zero_le 2) done
  | cons c cs ih =>
      obtain ⟨hc, hmore⟩ := List.forall_mem_cons.mp hcs
      have htail : hasTriple '\x27' cs = false := by
        match cs, htriple with
        | [], _ | [_], _ => rfl
        | b :: d :: cs, htriple => exact (Bool.or_eq_false_iff.mp htriple).2
      by_cases hone : c = '\x27' ∧ cs = []
      · obtain ⟨rfl, rfl⟩ := hone
        exact literalText?_close hrest (n := 1) (by decide) done
      by_cases htwo : c = '\x27' ∧ cs = ['\x27']
      · obtain ⟨rfl, rfl⟩ := htwo
        exact literalText?_close hrest (n := 2) (by decide) done
      rw [List.cons_append, literalText?_cons hc, ih hmore htail]
      · simp
      · intro more heq
        obtain ⟨rfl, hquotes⟩ := List.cons.inj heq
        clear heq
        match cs with
        | [] => exact hone ⟨rfl, rfl⟩
        | [b] =>
            obtain rfl := (List.cons.inj hquotes).1
            exact htwo ⟨rfl, rfl⟩
        | b :: d :: cs =>
            obtain ⟨hb, hquotes⟩ := List.cons.inj hquotes
            have hd := (List.cons.inj hquotes).1
            simp [hasTriple, hb, hd] at htriple

/-! ## Strings on several lines with escapes -/

theorem basicText?_close (hrest : ∀ c ∈ rest.head?, c ≠ '"') {n : Nat} (hn : n ≤ 2) (done : List Char) :
    basicText? false done (List.replicate n '"' ++ '"' :: '"' :: '"' :: rest) =
      some (String.ofList (done.reverse ++ List.replicate n '"'), rest) := by
  rw [run_append_triple, basicText?, closeText_run hrest hn]

/-- An escape is not the end of a line. -/
theorem endsLine_letter {e x : Char} (h : simpleEscape? e = some x) (cs : List Char) : endsLine (e :: cs) = false := by
  unfold simpleEscape? at h
  split at h
  · rfl
  · rfl
  · rfl
  · rfl
  · rfl
  · rfl
  · rfl
  · cases h

/-- A written character is read in one step, as on one line. -/
theorem basicText?_lineEscaped (c : Char) (done cs : List Char) :
    basicText? false done (lineEscaped c ++ cs) = basicText? false (c :: done) cs := by
  cases lineWritten c with
  | letter e text stands =>
      obtain ⟨hu, hU⟩ := simpleEscape?_letter stands
      rw [text]
      simp [basicText?, stands, hu, hU, endsLine_letter stands]
  | digits control text =>
      rw [text]
      simp [basicText?, codePoint?_hexDigits control]
  | itself text hquote backslash visible =>
      have hfeed : c ≠ '\n' := by
        rintro rfl
        exact absurd visible (by decide)
      have hreturn : c ≠ '\r' := by
        rintro rfl
        exact absurd visible (by decide)
      rw [text]
      simp [basicText?, hquote, hfeed, hreturn, visible, backslash]

/-- A character that is no quote, inside a string on several lines. -/
def textEscaped (c : Char) : List Char := (escaped? c).getD [c]

theorem textEscaped_eq (hquote : c ≠ '"') (hfeed : c ≠ '\n') : textEscaped c = lineEscaped c := by
  unfold textEscaped lineEscaped
  rw [if_neg hquote, if_neg hfeed]

theorem basicText?_textEscaped (hquote : c ≠ '"') (done cs : List Char) :
    basicText? false done (textEscaped c ++ cs) = basicText? false (c :: done) cs := by
  by_cases hfeed : c = '\n'
  · subst hfeed
    show basicText? false done ('\n' :: cs) = _
    simp [basicText?]
  · rw [textEscaped_eq hquote hfeed, basicText?_lineEscaped]

/-- What is written of a character that is no quote begins with none. -/
theorem textEscaped_append_ne (hquote : c ≠ '"') (cs more : List Char) : textEscaped c ++ cs ≠ '"' :: more := by
  by_cases hfeed : c = '\n'
  · subst hfeed
    intro heq
    cases heq
  · rw [textEscaped_eq hquote hfeed]
    cases lineWritten c with
    | letter e text stands => rw [text]; simp
    | digits control text => rw [text]; simp
    | itself text _ _ _ => rw [text]; simp [hquote]

theorem basicTextBody_quote {n : Nat} (hn : n ≠ 2) (cs : List Char) :
    basicTextBody n ('"' :: cs) = '"' :: basicTextBody (n + 1) cs := by
  rw [basicTextBody, if_pos rfl, if_neg hn]

theorem basicTextBody_third (cs : List Char) : basicTextBody 2 ('"' :: cs) = '\\' :: '"' :: basicTextBody 0 cs := by
  rw [basicTextBody, if_pos rfl, if_pos rfl]

theorem basicTextBody_char (hquote : c ≠ '"') (n : Nat) (cs : List Char) :
    basicTextBody n (c :: cs) = textEscaped c ++ basicTextBody 0 cs := by
  rw [basicTextBody, if_neg hquote]
  rfl

/-- Behind two quotes that are not escaped, the text of the string goes on with none. -/
theorem basicTextBody_two_ne (hne : cs ≠ []) (rest more : List Char) : basicTextBody 2 cs ++ rest ≠ '"' :: more := by
  obtain ⟨c, cs, rfl⟩ := List.exists_cons_of_ne_nil hne
  by_cases hquote : c = '"'
  · subst hquote
    rw [basicTextBody_third]
    intro heq
    cases heq
  · rw [basicTextBody_char hquote, List.append_assoc]
    exact textEscaped_append_ne hquote _ more

/-- Behind one quote that is not escaped, the text of the string goes on with at most one. -/
theorem basicTextBody_one_ne (hne : cs ≠ []) (hone : cs ≠ ['"']) (rest more : List Char) :
    basicTextBody 1 cs ++ rest ≠ '"' :: '"' :: more := by
  obtain ⟨c, cs, rfl⟩ := List.exists_cons_of_ne_nil hne
  by_cases hquote : c = '"'
  · subst hquote
    have hcs : cs ≠ [] := by
      rintro rfl
      exact hone rfl
    rw [basicTextBody_quote (by decide)]
    intro heq
    exact basicTextBody_two_ne hcs rest more (List.cons.inj heq).2
  · rw [basicTextBody_char hquote, List.append_assoc]
    exact textEscaped_append_ne hquote _ _

/-- A quote is taken by itself where no two others follow it. -/
theorem basicText?_quote (h : ∀ more, cs ≠ '"' :: '"' :: more) (done : List Char) :
    basicText? false done ('"' :: cs) = basicText? false ('"' :: done) cs := by
  rw [basicText?]
  · simp [isPrintable]
  · intro more _ hmore
    exact h more hmore
  all_goals
    intros
    simp_all

/-- By induction on the string, with the number of quotes in front that are not escaped: a quote is taken by itself,
    unless it is the last or the last but one of a string that ends with such quotes. -/
theorem basicText?_written (hrest : ∀ c ∈ rest.head?, c ≠ '"') {n : Nat} (hn : n ≤ 2) (cs done : List Char) :
    basicText? false done (basicTextBody n cs ++ '"' :: '"' :: '"' :: rest) =
      some (String.ofList (done.reverse ++ cs), rest) := by
  induction cs generalizing n done with
  | nil => simpa [basicTextBody] using basicText?_close hrest (Nat.zero_le 2) done
  | cons c cs ih =>
      by_cases hquote : c = '"'
      · subst hquote
        obtain rfl | hless := Nat.eq_or_lt_of_le hn
        · rw [basicTextBody_third]
          show basicText? false done (lineEscaped '"' ++ (basicTextBody 0 cs ++ _)) = _
          rw [basicText?_lineEscaped, ih (Nat.zero_le 2)]
          simp
        · by_cases hone : cs = []
          · subst hone
            rw [basicTextBody_quote (Nat.ne_of_lt hless)]
            exact basicText?_close hrest (n := 1) (by decide) done
          by_cases htwo : n = 0 ∧ cs = ['"']
          · obtain ⟨rfl, rfl⟩ := htwo
            exact basicText?_close hrest (n := 2) (by decide) done
          rw [basicTextBody_quote (Nat.ne_of_lt hless), List.cons_append, basicText?_quote, ih hless]
          · simp
          · intro more
            match n, hless with
            | 0, _ => exact basicTextBody_one_ne hone (fun hcs => htwo ⟨rfl, hcs⟩) _ more
            | 1, _ => exact basicTextBody_two_ne hone _ _
      · rw [basicTextBody_char hquote, List.append_assoc, basicText?_textEscaped hquote, ih (Nat.zero_le 2)]
        simp

/-! ## All strings -/

/-- What stands behind a string: no quote. -/
def NoQuote (rest : List Char) : Prop := ∀ c ∈ rest.head?, c ≠ '"' ∧ c ≠ '\x27'

/-- The line feed behind the opening quotes is skipped, and where there is none, the string does not begin with one. -/
theorem skipNewline_opening {body : List Char} (h : '\n' ∉ cs → ∀ c ∈ body.head?, c ≠ '\n' ∧ c ≠ '\r') :
    skipNewline (opening cs ++ body) = body := by
  unfold opening
  by_cases hfeed : '\n' ∈ cs
  · rw [if_pos (by simpa using hfeed)]
    rfl
  · rw [if_neg (by simpa using hfeed), List.nil_append]
    cases body with
    | nil => rfl
    | cons c body =>
        obtain ⟨hc, hreturn⟩ := h hfeed c rfl
        simp [skipNewline, newline?, hc, hreturn]

/-- Where a string has no line feed, neither has what is written of it, and nothing is written of it as it is that
    could be taken for one. -/
theorem head?_basicTextBody (h : '\n' ∉ cs) {quotes : List Char} (hquotes : quotes.head? = some '"') :
    ∀ c ∈ (basicTextBody 0 cs ++ quotes).head?, c ≠ '\n' ∧ c ≠ '\r' := by
  intro d hd
  cases cs with
  | nil =>
      rw [basicTextBody, List.nil_append, hquotes] at hd
      cases hd
      decide
  | cons c cs =>
      rw [List.mem_cons, not_or] at h
      by_cases hquote : c = '"'
      · subst hquote
        rw [basicTextBody_quote (by decide)] at hd
        cases hd
        decide
      · rw [basicTextBody_char hquote, textEscaped_eq hquote (Ne.symm h.1)] at hd
        cases lineWritten c with
        | letter e text stands =>
            rw [text] at hd
            cases hd
            decide
        | digits control text =>
            rw [text] at hd
            cases hd
            decide
        | itself text _ _ visible =>
            rw [text] at hd
            cases hd
            constructor
            · exact Ne.symm h.1
            · rintro rfl
              exact absurd visible (by decide)

theorem string?_inForm {s : String} {form : StringForm} (h : Suits s.toList form) (hrest : NoQuote rest) :
    string? (inForm s.toList form ++ rest) = some (s, rest) := by
  have hdouble : ∀ c ∈ rest.head?, c ≠ '"' := fun c hc => (hrest c hc).1
  have hsingle : ∀ c ∈ rest.head?, c ≠ '\x27' := fun c hc => (hrest c hc).2
  cases h with
  | basicLine => exact string?_line s fun hc => hdouble '"' hc rfl
  | literalLine hne hcs =>
      have hread := literalLine?_written hcs [] rest
      obtain ⟨c, cs, htext⟩ := List.exists_cons_of_ne_nil hne
      have hc : c ≠ '\x27' := (hcs c (by rw [htext]; exact .head _)).2
      rw [List.reverse_nil, List.nil_append, String.ofList_toList, htext] at hread
      show string? ('\x27' :: s.toList ++ ['\x27'] ++ rest) = _
      rw [htext, List.append_assoc]
      simpa [string?, hc] using hread
  | basicText =>
      have hread := basicText?_written hdouble (Nat.zero_le 2) s.toList []
      rw [List.reverse_nil, List.nil_append, String.ofList_toList] at hread
      show string? ('"' :: '"' :: '"' :: (opening s.toList ++ basicTextBody 0 s.toList ++ ['"', '"', '"'] ++ rest)) = _
      rw [string?, List.append_assoc, List.append_assoc,
        skipNewline_opening fun hfeed => head?_basicTextBody hfeed rfl]
      exact hread
  | literalText hcs htriple =>
      have hread := literalText?_written hcs htriple hsingle []
      rw [List.reverse_nil, List.nil_append, String.ofList_toList] at hread
      show string? ('\x27' :: '\x27' :: '\x27' ::
        (opening s.toList ++ s.toList ++ ['\x27', '\x27', '\x27'] ++ rest)) = _
      rw [string?, List.append_assoc, List.append_assoc, skipNewline_opening]
      · exact hread
      · intro hfeed c hc
        cases htext : s.toList with
        | nil =>
            rw [htext] at hc
            cases hc
            decide
        | cons d cs =>
            rw [htext] at hc hcs hfeed
            cases hc
            constructor
            · rintro rfl
              exact hfeed (.head _)
            · rintro rfl
              exact absurd (hcs '\r' (.head _)) (by decide)

/-- A string is read as it was written, in whatever form. -/
theorem string?_quoted (s : String) (hrest : NoQuote rest) : string? (quoted s ++ rest) = some (s, rest) :=
  string?_inForm (suits_stringForm s.toList) hrest

/-! ## Keys -/

theorem takeWhile_bare (hcs : cs.all isBareChar = true) (rest : List Char) :
    (cs ++ ' ' :: rest).takeWhile isBareKeyChar = cs ∧ (cs ++ ' ' :: rest).dropWhile isBareKeyChar = ' ' :: rest := by
  have hall : ∀ c ∈ cs, isBareKeyChar c = true := List.all_eq_true.mp hcs
  constructor
  · rw [List.takeWhile_append_of_pos hall]
    simp [isBareKeyChar]
  · rw [List.dropWhile_append_of_pos hall]
    simp [isBareKeyChar]

/-- A key is read as it was written, where a blank stands behind it. -/
theorem keyPart?_keyText (key : String) (rest : List Char) :
    keyPart? (keyText key ++ ' ' :: rest) = some (key, ' ' :: rest) := by
  unfold keyText
  dsimp only
  split
  · rename_i hbare
    simp only [Bool.and_eq_true, decide_eq_true_eq] at hbare
    obtain ⟨hne, hall⟩ := hbare
    obtain ⟨htake, hdrop⟩ := takeWhile_bare hall rest
    obtain ⟨c, cs, htext⟩ := List.exists_cons_of_ne_nil hne
    have hc : isBareChar c = true := List.all_eq_true.mp hall c (by rw [htext]; exact .head _)
    have hdouble : c ≠ '"' := by rintro rfl; revert hc; decide
    have hsingle : c ≠ '\x27' := by rintro rfl; revert hc; decide
    have hkey : String.ofList (c :: cs) = key := by rw [← htext, String.ofList_toList]
    rw [htext] at htake hdrop ⊢
    rw [List.cons_append] at htake hdrop ⊢
    simp [keyPart?, hdouble, hsingle, htake, hdrop, hkey]
  · split
    · exact keyPart?_line key _
    · split
      · rename_i hliteral
        simp only [Bool.and_eq_true, Bool.not_eq_true', List.contains_eq_mem, decide_eq_false_iff_not] at hliteral
        obtain ⟨hfree, hquote⟩ := hliteral
        have hcs : ∀ c ∈ key.toList, isPrintable c = true ∧ c ≠ '\x27' := by
          intro c hc
          have hany := List.any_eq_false.mp hfree c hc
          simp only [Bool.or_eq_true, decide_eq_true_eq, not_or] at hany
          have hcontrol : key.toList.any isControl = false := by
            refine List.any_eq_false.mpr fun d hd => ?_
            have hd := List.any_eq_false.mp hfree d hd
            simp only [Bool.or_eq_true, not_or] at hd
            exact hd.1
          refine ⟨(printable_of_free hcontrol c hc).resolve_left hany.2, ?_⟩
          rintro rfl
          exact hquote hc
        have hread := literalLine?_written hcs [] (' ' :: rest)
        rw [List.reverse_nil, List.nil_append, String.ofList_toList] at hread
        show keyPart? ('\x27' :: key.toList ++ ['\x27'] ++ ' ' :: rest) = _
        rw [List.append_assoc]
        exact hread
      · exact keyPart?_line key _

end Esql.Document.Toml
