import Esql.Proofs.Document.KeyPaths
import Mathlib.Data.List.Forall2
import Mathlib.Data.List.TakeWhile

/-!
# `Proofs.Document.PathSpellings` — the texts that spell a path

A text spells a path if it is a row of pieces with dots between them, one piece for each key: the key in quotes, or
the key as it is where nothing in it could be taken for something else, and blanks on either side. `Spelling` says
this without a reader. The reader accepts just these texts (`splitDotted_iff_spelling`), so no text spells two paths,
and every path of keys that can be quoted has a text.

The reader looks at a text from left to right and trims as it goes; a spelling is a row of whole pieces. The two meet
in the text between the outermost blanks: what a reader finds there is spelled by it with any blanks around
(`spelling_of_keys?`), and every spelling has such a text inside, on which the reader succeeds (`Spelling.inner`).

## Contents
- Blanks at the ends of a text.
- `Written`, `Piece` and `Spelling`.
- One key and what stands behind it.
- Whole paths.
-/

namespace Esql.Document

open Esql.Text (isBlank trim trimStart trimEnd)

/-! ## Blanks at the ends -/

/-- Nothing but blanks. -/
def AllBlank (cs : List Char) : Prop := ∀ c ∈ cs, isBlank c = true

/-- A text with no blank at its two ends. -/
structure Trimmed (cs : List Char) : Prop where
  head : ∀ c ∈ cs.head?, isBlank c = false
  last : ∀ c ∈ cs.getLast?, isBlank c = false

variable {before cs core after rest left : List Char}

theorem AllBlank.append (h : AllBlank before) (h' : AllBlank after) : AllBlank (before ++ after) := by
  intro c hc
  exact (List.mem_append.mp hc).elim (h c) (h' c)

theorem trimStart_eq_self (h : ∀ c ∈ cs.head?, isBlank c = false) : trimStart cs = cs := by
  cases cs with
  | nil => rfl
  | cons c cs => exact List.dropWhile_cons_of_neg (by simp [h c rfl])

theorem trimStart_blanks (h : AllBlank before) (cs : List Char) : trimStart (before ++ cs) = trimStart cs :=
  List.dropWhile_append_of_pos h

theorem trimStart_spec (cs : List Char) :
    ∃ before, AllBlank before ∧ cs = before ++ trimStart cs ∧ ∀ c ∈ (trimStart cs).head?, isBlank c = false := by
  refine ⟨cs.takeWhile isBlank, fun c => List.mem_takeWhile_imp, List.takeWhile_append_dropWhile.symm, ?_⟩
  intro c hc
  have hhead := List.head?_dropWhile_not isBlank cs
  unfold trimStart at hc
  rw [Option.mem_def.mp hc] at hhead
  simpa using hhead

theorem trimEnd_eq_self (h : ∀ c ∈ cs.getLast?, isBlank c = false) : trimEnd cs = cs := by
  unfold trimEnd
  rw [trimStart_eq_self (by simpa using h), List.reverse_reverse]

theorem trimEnd_blanks (h : AllBlank after) (cs : List Char) : trimEnd (cs ++ after) = trimEnd cs := by
  unfold trimEnd
  rw [List.reverse_append, trimStart_blanks]
  intro c hc
  exact h c (List.mem_reverse.mp hc)

theorem trimEnd_spec (cs : List Char) :
    ∃ after, AllBlank after ∧ cs = trimEnd cs ++ after ∧ ∀ c ∈ (trimEnd cs).getLast?, isBlank c = false := by
  obtain ⟨before, hbefore, hcs, hhead⟩ := trimStart_spec cs.reverse
  refine ⟨before.reverse, fun c hc => hbefore c (List.mem_reverse.mp hc), ?_, ?_⟩
  · unfold trimEnd
    rw [← List.reverse_append, ← hcs, List.reverse_reverse]
  · unfold trimEnd
    simpa using hhead

theorem Trimmed.join (h : Trimmed before) (hne : before ≠ []) (h' : Trimmed after) (hne' : after ≠ [])
    (between : List Char) : Trimmed (before ++ between ++ after) := by
  constructor
  · obtain ⟨c, cs, rfl⟩ := List.exists_cons_of_ne_nil hne
    exact h.head
  · rw [List.getLast?_append_of_ne_nil _ hne']
    exact h'.last

/-- A text is found again between blanks. -/
theorem Trimmed.trim_eq (h : Trimmed cs) (hbefore : AllBlank before) (hafter : AllBlank after) :
    trim (before ++ cs ++ after) = cs := by
  unfold trim
  rw [List.append_assoc, trimStart_blanks hbefore]
  cases cs with
  | nil =>
      obtain ⟨blanks, hblanks, heq, -⟩ := trimStart_spec after
      have hall : AllBlank (trimStart after) := fun c hc => hafter c (heq ▸ List.mem_append_right _ hc)
      exact trimEnd_blanks hall []
  | cons c cs =>
      rw [trimStart_eq_self (by simpa using h.head), trimEnd_blanks hafter, trimEnd_eq_self h.last]

theorem trim_spec (cs : List Char) :
    ∃ before after, AllBlank before ∧ AllBlank after ∧ cs = before ++ trim cs ++ after ∧ Trimmed (trim cs) := by
  obtain ⟨before, hbefore, hcs, hhead⟩ := trimStart_spec cs
  obtain ⟨after, hafter, hstart, hlast⟩ := trimEnd_spec (trimStart cs)
  refine ⟨before, after, hbefore, hafter, ?_, ?_, hlast⟩
  · unfold trim
    rw [List.append_assoc, ← hstart, ← hcs]
  · intro c hc
    have htrim : (trimEnd (trimStart cs)).head? = some c := hc
    refine hhead c ?_
    rw [hstart, Option.mem_def, List.head?_append, htrim]
    rfl

/-! ## Spellings -/

/-- A key as it is written in a path: in quotes, or as it is where it is not empty, has no dot and no blank at its
    ends, and does not begin with a quote. -/
inductive Written : String → List Char → Prop
  | quoted (quoted : QuotedKey) : Written quoted.key quoted.text
  | plain {key : String} : key.toList ≠ [] → '.' ∉ key.toList → Trimmed key.toList →
      (∀ c ∈ key.toList.head?, isQuote c = false) → Written key key.toList

/-- A key as it is written, with blanks on either side. -/
inductive Piece (key : String) : List Char → Prop
  | intro {before core after : List Char} : AllBlank before → Written key core → AllBlank after →
      Piece key (before ++ core ++ after)

/-- A text that spells a path: a piece for each key, and dots between the pieces. -/
def Spelling (keys : List String) (cs : List Char) : Prop :=
  keys ≠ [] ∧ ∃ pieces, List.Forall₂ Piece keys pieces ∧ cs = List.intercalate ['.'] pieces

variable {key : String} {keys : List String}

theorem Written.trimmed (h : Written key core) : Trimmed core := by
  cases h with
  | quoted quoted =>
      have hlast : quoted.text.getLast? = some quoted.quote := by
        rw [QuotedKey.text, List.getLast?_concat]
      have hhead : quoted.text.head? = some quoted.quote := rfl
      constructor
      · rw [hhead]
        simpa using quoted.notBlank
      · rw [hlast]
        simpa using quoted.notBlank
  | plain _ _ htrimmed _ => exact htrimmed

theorem Written.ne_nil (h : Written key core) : core ≠ [] := by
  cases h with
  | quoted quoted => exact List.cons_ne_nil _ _
  | plain hne _ _ _ => exact hne

theorem Spelling.single (hbefore : AllBlank before) (h : Written key core) (hafter : AllBlank after) :
    Spelling [key] (before ++ core ++ after) :=
  ⟨List.cons_ne_nil _ _, [before ++ core ++ after], .cons (.intro hbefore h hafter) .nil, by simp⟩

theorem Spelling.cons (hbefore : AllBlank before) (h : Written key core) (hafter : AllBlank after)
    (hrest : Spelling keys rest) : Spelling (key :: keys) (before ++ core ++ after ++ '.' :: rest) := by
  obtain ⟨hne, pieces, hpieces, rfl⟩ := hrest
  refine ⟨List.cons_ne_nil _ _, (before ++ core ++ after) :: pieces, .cons (.intro hbefore h hafter) hpieces, ?_⟩
  have hpieces : pieces ≠ [] := by
    rintro rfl
    cases hpieces
    exact hne rfl
  rw [List.intercalate_cons_of_ne_nil hpieces, List.append_assoc _ ['.'], List.singleton_append]

/-- A spelling is one piece, or a piece and a dot before another spelling. -/
@[elab_as_elim]
theorem Spelling.induct {motive : List String → List Char → Prop}
    (single : ∀ {key before core after}, AllBlank before → Written key core → AllBlank after →
      motive [key] (before ++ core ++ after))
    (cons : ∀ {key keys before core after rest}, AllBlank before → Written key core → AllBlank after →
      motive keys rest → motive (key :: keys) (before ++ core ++ after ++ '.' :: rest))
    (h : Spelling keys cs) : motive keys cs := by
  obtain ⟨hne, pieces, hpieces, rfl⟩ := h
  induction hpieces with
  | nil => exact absurd rfl hne
  | @cons key piece keys pieces hpiece hpieces ih =>
      obtain ⟨hbefore, hwritten, hafter⟩ := hpiece
      cases hpieces with
      | nil => simpa using single hbefore hwritten hafter
      | cons hnext hmore =>
          rw [List.intercalate_cons_of_ne_nil (List.cons_ne_nil _ _), List.append_assoc _ ['.'], List.singleton_append]
          exact cons hbefore hwritten hafter (ih (List.cons_ne_nil _ _))

/-! ## One key -/

/-- What stands behind a key and its blanks: nothing, or a dot. -/
def EndsKey (rest : List Char) : Prop := ∀ c ∈ rest.head?, c = '.'

theorem trimStart_of_endsKey (h : EndsKey rest) : trimStart rest = rest :=
  trimStart_eq_self fun c hc => by
    rw [h c hc]
    decide

/-- A written key is read, and so are the blanks behind it, by the reader of the key or after it. -/
theorem Written.key? (h : Written key core) (hafter : AllBlank after) (hrest : EndsKey rest) :
    ∃ left, key? (core ++ after ++ rest) = some (key.toList, left) ∧ trimStart left = rest := by
  cases h with
  | quoted quoted =>
      refine ⟨after ++ rest, ?_, ?_⟩
      · rw [List.append_assoc, quoted.key?_text]
      · rw [trimStart_blanks hafter, trimStart_of_endsKey hrest]
  | plain hne hdot htrimmed hquote =>
      have hinside : ∀ c ∈ key.toList ++ after, decide (c ≠ '.') = true := by
        intro c hc
        refine decide_eq_true ?_
        rintro rfl
        obtain hc | hc := List.mem_append.mp hc
        · exact hdot hc
        · exact absurd (hafter '.' hc) (by decide)
      have htake : (key.toList ++ after ++ rest).takeWhile (· ≠ '.') = key.toList ++ after := by
        rw [List.takeWhile_append_of_pos hinside]
        cases rest with
        | nil => simp
        | cons c rest => simp [hrest c rfl]
      have hdrop : (key.toList ++ after ++ rest).dropWhile (· ≠ '.') = rest := by
        rw [List.dropWhile_append_of_pos hinside]
        cases rest with
        | nil => rfl
        | cons c rest => simp [hrest c rfl]
      have htrim : trim (key.toList ++ after) = key.toList := by
        have hnothing : AllBlank [] := by simp [AllBlank]
        have h := htrimmed.trim_eq hnothing hafter
        rwa [List.nil_append] at h
      refine ⟨rest, ?_, trimStart_of_endsKey hrest⟩
      have hplain : plainKey? (key.toList ++ after ++ rest) = some (key.toList, rest) := by
        rw [plainKey?, htake, htrim, hdrop]
        cases hkey : key.toList with
        | nil => exact absurd hkey hne
        | cons c cs => rfl
      cases hkey : key.toList with
      | nil => exact absurd hkey hne
      | cons c cs =>
          rw [hkey] at hplain hquote
          rw [List.cons_append, List.cons_append, Document.key?, if_neg (by simp [hquote c rfl])]
          exact hplain

theorem written_of_quotedKey? {quote : Char} {name : List Char} (hquote : isQuote quote = true)
    (h : quotedKey? quote rest = some (name, left)) :
    ∃ core after, Written (String.ofList name) core ∧ AllBlank after ∧
      quote :: rest = core ++ after ++ trimStart left := by
  unfold quotedKey? at h
  split at h
  · cases h
  · rename_i close behind hdrop
    obtain ⟨rfl, rfl⟩ := Prod.mk.inj (Option.some.inj h)
    have hclose : close = quote := by
      have hnot := List.head?_dropWhile_not (fun c => decide (c ≠ quote)) rest
      rw [hdrop] at hnot
      simpa using hnot
    have hfree : quote ∉ (String.ofList (rest.takeWhile fun c => decide (c ≠ quote))).toList := by
      rw [String.toList_ofList]
      intro hc
      simpa using List.mem_takeWhile_imp hc
    have hrest : rest = rest.takeWhile (fun c => decide (c ≠ quote)) ++ quote :: behind := by
      rw [← hclose, ← hdrop, hclose]
      exact List.takeWhile_append_dropWhile.symm
    obtain ⟨after, hafter, hbehind, -⟩ := trimStart_spec behind
    refine ⟨_, after, .quoted ⟨quote, _, hquote, hfree⟩, hafter, ?_⟩
    rw [List.append_assoc, ← hbehind, QuotedKey.text, String.toList_ofList, List.append_assoc, List.cons_append,
      List.singleton_append, ← hrest]

theorem written_of_plainKey? {name : List Char} (hblank : ∀ c ∈ cs.head?, isBlank c = false)
    (hquote : ∀ c ∈ cs.head?, isQuote c = false) (h : plainKey? cs = some (name, left)) :
    ∃ core after, Written (String.ofList name) core ∧ AllBlank after ∧ cs = core ++ after ++ trimStart left := by
  unfold plainKey? at h
  split at h
  · cases h
  · rename_i hne
    obtain ⟨hname, rfl⟩ := Prod.mk.inj (Option.some.inj h)
    obtain ⟨before, after, hbefore, hafter, htake, htrimmed⟩ := trim_spec (cs.takeWhile fun c => decide (c ≠ '.'))
    rw [hname] at htake htrimmed hne
    have hcs : cs = before ++ name ++ after ++ cs.dropWhile fun c => decide (c ≠ '.') := by
      rw [← htake]
      exact List.takeWhile_append_dropWhile.symm
    have hnil : before = [] := by
      cases before with
      | nil => rfl
      | cons c before =>
          have hc : isBlank c = false := hblank c (by rw [hcs]; rfl)
          rw [hbefore c List.mem_cons_self] at hc
          cases hc
    have hdot : '.' ∉ name := by
      intro hc
      have hmem : '.' ∈ cs.takeWhile fun c => decide (c ≠ '.') := by
        rw [htake]
        simp [hc]
      simpa using List.mem_takeWhile_imp hmem
    have hfirst : ∀ c ∈ name.head?, isQuote c = false := by
      intro c hc
      refine hquote c ?_
      rw [hcs, hnil, List.nil_append, List.append_assoc, Option.mem_def, List.head?_append, Option.mem_def.mp hc]
      rfl
    have hends : EndsKey (cs.dropWhile fun c => decide (c ≠ '.')) := by
      intro c hc
      have hnot := List.head?_dropWhile_not (fun c => decide (c ≠ '.')) cs
      rw [Option.mem_def.mp hc] at hnot
      simpa using hnot
    refine ⟨name, after, ?_, hafter, ?_⟩
    · have hplain := @Written.plain (String.ofList name)
      rw [String.toList_ofList] at hplain
      exact hplain (fun hnil => hne hnil) hdot htrimmed hfirst
    · rw [trimStart_of_endsKey hends]
      rwa [hnil, List.nil_append] at hcs

/-- A key that is read was written where it was read. -/
theorem written_of_key? {name : List Char} (hhead : ∀ c ∈ cs.head?, isBlank c = false)
    (h : key? cs = some (name, left)) :
    ∃ core after, Written (String.ofList name) core ∧ AllBlank after ∧ cs = core ++ after ++ trimStart left := by
  unfold key? at h
  split at h
  · rename_i c rest
    split at h
    · rename_i hquote
      exact written_of_quotedKey? hquote h
    · rename_i hquote
      exact written_of_plainKey? hhead (by simpa using hquote) h
  · cases h

/-! ## Whole paths -/

theorem keys?_succ (n : Nat) (cs : List Char) :
    keys? (n + 1) cs = (key? cs).bind fun (name, left) =>
      match trimStart left with
      | [] => some [String.ofList name]
      | '.' :: rest => (keys? n (trimStart rest)).map (String.ofList name :: ·)
      | _ => none := by
  rw [keys?]
  cases key? cs with
  | none => rfl
  | some key => rfl

/-- Inside the outermost blanks of a spelling, its keys are read. -/
theorem Spelling.inner (h : Spelling keys cs) :
    ∃ before inner after, AllBlank before ∧ AllBlank after ∧ cs = before ++ inner ++ after ∧ Trimmed inner ∧
      inner ≠ [] ∧ ∀ n, keys.length ≤ n → keys? n inner = some keys := by
  refine Spelling.induct (fun {key before core after} hbefore hwritten hafter => ?_)
    (fun {key keys before core after rest} hbefore hwritten hafter ih => ?_) h
  · refine ⟨before, core, after, hbefore, hafter, rfl, hwritten.trimmed, hwritten.ne_nil, ?_⟩
    intro n hn
    obtain ⟨n, rfl⟩ := Nat.exists_eq_add_one_of_ne_zero (Nat.ne_zero_of_lt hn)
    have hnothing : AllBlank [] := by simp [AllBlank]
    have hends : EndsKey [] := by simp [EndsKey]
    obtain ⟨left, hkey, hleft⟩ := hwritten.key? hnothing hends
    rw [List.append_nil, List.append_nil] at hkey
    rw [keys?_succ, hkey, Option.bind_some]
    simp [hleft]
  · obtain ⟨before', inner, after', hbefore', hafter', rfl, htrimmed, hne, hkeys⟩ := ih
    refine ⟨before, core ++ after ++ '.' :: (before' ++ inner), after', hbefore, hafter', ?_, ?_, ?_, ?_⟩
    · simp
    · have hends := hwritten.trimmed.join hwritten.ne_nil htrimmed hne (after ++ '.' :: before')
      simpa using hends
    · simp
    · intro n hn
      obtain ⟨n, rfl⟩ := Nat.exists_eq_add_one_of_ne_zero (Nat.ne_zero_of_lt hn)
      have hends : EndsKey ('.' :: (before' ++ inner)) := by simp [EndsKey]
      obtain ⟨left, hkey, hleft⟩ := hwritten.key? hafter hends
      have hinner : trimStart (before' ++ inner) = inner := by
        rw [trimStart_blanks hbefore', trimStart_eq_self htrimmed.head]
      rw [keys?_succ, hkey, Option.bind_some]
      simp [hleft, hinner, hkeys n (Nat.le_of_succ_le_succ hn)]

/-- What a reader finds keys in is spelled by them, with any blanks around. -/
theorem spelling_of_keys? {n : Nat} (h : keys? n cs = some keys) (hhead : ∀ c ∈ cs.head?, isBlank c = false)
    (hbefore : AllBlank before) (hafter : AllBlank after) : Spelling keys (before ++ cs ++ after) := by
  induction n generalizing cs keys before with
  | zero => cases h
  | succ n ih =>
      rw [keys?_succ] at h
      obtain ⟨⟨name, left⟩, hkey, h⟩ := Option.bind_eq_some_iff.mp h
      obtain ⟨core, blanks, hwritten, hblanks, hcs⟩ := written_of_key? hhead hkey
      dsimp only at h
      split at h
      · rename_i hleft
        rw [hleft, List.append_nil] at hcs
        obtain rfl := Option.some.inj h
        rw [hcs, List.append_assoc before, List.append_assoc core, ← List.append_assoc before]
        exact .single hbefore hwritten (hblanks.append hafter)
      · rename_i rest hleft
        obtain ⟨others, hothers, rfl⟩ := Option.map_eq_some_iff.mp h
        obtain ⟨before', hbefore', hrest, hhead'⟩ := trimStart_spec rest
        have hspelling := ih hothers hhead' hbefore'
        rw [← hrest] at hspelling
        have hcons := Spelling.cons hbefore hwritten hblanks hspelling
        rw [hcs, hleft]
        simpa using hcons
      · cases h

theorem splitDotted_eq_some_iff (text : String) (keys : List String) :
    splitDotted text = some keys ↔ Spelling keys text.toList := by
  constructor
  · intro h
    obtain ⟨before, after, hbefore, hafter, htext, htrimmed⟩ := trim_spec text.toList
    rw [htext]
    exact spelling_of_keys? h htrimmed.head hbefore hafter
  · intro h
    obtain ⟨before, inner, after, hbefore, hafter, htext, htrimmed, -, hkeys⟩ := h.inner
    rw [splitDotted, htext, htrimmed.trim_eq hbefore hafter, ← htext]
    refine hkeys _ ?_
    obtain ⟨-, pieces, hpieces, htext⟩ := h
    rw [hpieces.length_eq, htext]
    exact length_le_intercalate (List.cons_ne_nil _ _) pieces

theorem exists_quotedKeys (h : ∀ key ∈ keys, '"' ∉ key.toList ∨ '\x27' ∉ key.toList) :
    ∃ path : List QuotedKey, path.map QuotedKey.key = keys := by
  induction keys with
  | nil => exact ⟨[], rfl⟩
  | cons key keys ih =>
      obtain ⟨hkey, hkeys⟩ := List.forall_mem_cons.mp h
      obtain ⟨path, rfl⟩ := ih hkeys
      obtain ⟨quoted, rfl⟩ := exists_quotedKey hkey
      exact ⟨quoted :: path, rfl⟩

theorem spelling_dotted {path : List QuotedKey} (hne : path ≠ []) :
    Spelling (path.map QuotedKey.key) (dotted path).toList :=
  (splitDotted_eq_some_iff _ _).mp (splitDotted_dotted hne)

/-- **A text is read as a path if it spells it, and as no other.** The keys that are read off a text are those of
    which it is a spelling; there is at most one such row of keys, and every row of keys that can be quoted has a
    spelling, from which it is read again. -/
theorem splitDotted_iff_spelling (text : String) (keys : List String) :
    (splitDotted text = some keys ↔ Spelling keys text.toList) ∧
      (∀ keys', Spelling keys text.toList → Spelling keys' text.toList → keys = keys') ∧
      (keys ≠ [] → (∀ key ∈ keys, '"' ∉ key.toList ∨ '\x27' ∉ key.toList) →
        ∃ spelling : String, Spelling keys spelling.toList ∧ splitDotted spelling = some keys) := by
  refine ⟨splitDotted_eq_some_iff text keys, ?_, ?_⟩
  · intro keys' h h'
    rw [← splitDotted_eq_some_iff] at h h'
    exact Option.some.inj (h.symm.trans h')
  · intro hne hquotes
    obtain ⟨path, rfl⟩ := exists_quotedKeys hquotes
    have hpath : path ≠ [] := fun hnil => hne (by rw [hnil]; rfl)
    exact ⟨dotted path, spelling_dotted hpath, splitDotted_dotted hpath⟩

/-- A key with blanks around it, one with a dot and a quote inside, and one without characters. -/
theorem splitDotted_iff_spelling_mixed :
    let text := "\u00a0a\t. 'b.\"c' .\"\" "
    let keys := ["a", "b.\"c", ""]
    (keys ≠ [] ∧ ∀ key ∈ keys, '"' ∉ key.toList ∨ '\x27' ∉ key.toList) ∧
      splitDotted text = some keys ∧ Spelling keys text.toList ∧
      (∀ keys', Spelling keys' text.toList → keys = keys') ∧
      ∃ spelling : String, Spelling keys spelling.toList ∧ splitDotted spelling = some keys := by
  intro text keys
  obtain ⟨hread, hunique, hexists⟩ := splitDotted_iff_spelling text keys
  have hkeys : splitDotted text = some keys := by decide +kernel
  have hquotes : ∀ key ∈ keys, '"' ∉ key.toList ∨ '\x27' ∉ key.toList := by decide
  have hne : keys ≠ [] := List.cons_ne_nil _ _
  have hspelling := hread.mp hkeys
  exact ⟨⟨hne, hquotes⟩, hkeys, hspelling, fun keys' => hunique keys' hspelling, hexists hne hquotes⟩

end Esql.Document
