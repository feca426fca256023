import Esql.Files.Glob
import Esql.Files.Resolve
import Esql.Proofs.Files.Paths

/-!
# `Proofs.Files.Matching` — what a pattern says about a path

Whether a path matches is found for all its suffixes at once. `Matches` says what it means, one piece after the
other (`accepts_iff`). Two facts about patterns follow by induction on the pieces: a pattern without `**` has at
least as many steps as any path that it matches (`depth_le_of_accepts`), and a pattern that begins with a text
without wildcards matches only paths that begin with it (`accepts_literal`).

## Contents
- `Matches`, and the marks of suffixes in terms of it.
- A set in a pattern.
- The steps of a path that matches.
- Patterns that begin without wildcards.
-/

namespace Esql.Files.Glob

open Esql.Files.Path (busy isIdle)

/-! ## Matching -/

/-- A row of pieces stands for a text. -/
inductive Matches : List Piece → List Char → Prop
  | nil : Matches [] []
  | one {piece c ps text} : piece.isChar c = true → Matches ps text → Matches (piece :: ps) (c :: text)
  | run {run ps text} : (∀ c ∈ run, c ≠ '/') → Matches ps text → Matches (.anyRun :: ps) (run ++ text)
  /-- At the end of a pattern `**` stands for everything. -/
  | rest {text} : Matches [.anyNames] text
  | noNames {ps text} : Matches ps text → Matches (.anyNames :: ps) text
  | names {front ps text} : Matches ps text → Matches (.anyNames :: ps) (front ++ '/' :: text)

/-- Marks that say of each suffix of a text, the longest first, whether it has a property. -/
inductive Marks (P : List Char → Prop) : List Char → List Bool → Prop
  | nil {now} : (now = true ↔ P []) → Marks P [] [now]
  | cons {now c text marks} : (now = true ↔ P (c :: text)) → Marks P text marks → Marks P (c :: text) (now :: marks)

variable {ps : List Piece} {text : List Char} {marks : List Bool} {P Q : List Char → Prop} {test : Char → Bool}

namespace Marks

theorem head (h : Marks P text marks) : marks.headD false = true ↔ P text := by
  cases h <;> assumption

theorem congr (h : Marks P text marks) (hPQ : ∀ suffix, P suffix ↔ Q suffix) : Marks Q text marks := by
  induction h with
  | nil hnow => exact .nil (hnow.trans (hPQ _))
  | cons hnow _ ih => exact .cons (hnow.trans (hPQ _)) ih

theorem const (hP : ∀ c text, P (c :: text) ↔ test c = true) {now : Bool} (hnil : now = true ↔ P []) :
    Marks P text (text.map test ++ [now]) := by
  induction text with
  | nil => exact .nil hnil
  | cons c text ih => exact .cons (hP c text).symm ih

theorem afterOne (h : Marks P text marks) :
    Marks (fun suffix => ∃ c rest, suffix = c :: rest ∧ test c = true ∧ P rest) text (afterOne test text marks) := by
  induction h with
  | nil => exact .nil (by simp)
  | cons _ htail ih => exact .cons (by rw [Bool.and_eq_true, htail.head]; simp) ih

theorem afterRun (h : Marks P text marks) :
    Marks (fun suffix => ∃ run rest, suffix = run ++ rest ∧ (∀ c ∈ run, test c = true) ∧ P rest) text
      (afterRun test text marks) := by
  induction h with
  | nil hnow => exact .nil (by simpa using hnow)
  | @cons now c text marks hnow htail ih =>
      refine .cons ?_ ih
      rw [Bool.or_eq_true, Bool.and_eq_true, ih.head, hnow]
      constructor
      · rintro (hnow | ⟨hc, run, rest, rfl, hrun, hrest⟩)
        · exact ⟨[], _, rfl, by simp, hnow⟩
        · exact ⟨c :: run, rest, rfl, by simpa [hc] using hrun, hrest⟩
      · rintro ⟨_ | ⟨c', run⟩, rest, heq, hrun, hrest⟩
        · rw [List.nil_append] at heq
          exact .inl (heq ▸ hrest)
        · obtain ⟨rfl, rfl⟩ := List.cons.inj heq
          exact .inr ⟨hrun c (by simp), run, rest, rfl, fun x hx => hrun x (by simp [hx]), hrest⟩

theorem or {marks' : List Bool} (h : Marks P text marks) (h' : Marks Q text marks') :
    Marks (fun suffix => P suffix ∨ Q suffix) text (List.zipWith (· || ·) marks marks') := by
  induction h generalizing marks' with
  | nil hnow =>
      cases h' with
      | nil hnow' => exact .nil (by rw [Bool.or_eq_true, hnow, hnow'])
  | cons hnow _ ih =>
      cases h' with
      | cons hnow' htail' => exact .cons (by rw [Bool.or_eq_true, hnow, hnow']) (ih htail')

end Marks

/-- The suffixes that are accepted are those for which the pieces stand. -/
theorem suffixes_marks (text : List Char) (ps : List Piece) : Marks (Matches ps) text (suffixes text ps) := by
  fun_induction suffixes text ps with
  | case1 => exact .const (by simpa using fun c text h => by cases h) (by simpa using Matches.nil)
  | case2 => exact .const (fun _ _ => iff_of_true .rest rfl) (iff_of_true rfl .rest)
  | case3 ps ih =>
      refine ih.afterRun.congr fun suffix => ⟨?_, fun h => ?_⟩
      · rintro ⟨run, rest, rfl, hrun, hrest⟩
        exact .run (by simpa using hrun) hrest
      · cases h with
        | one hone => contradiction
        | @run run _ rest hrun hrest => exact ⟨run, rest, rfl, by simpa using hrun, hrest⟩
  | case4 ps hps accepted ih =>
      refine (ih.or ih.afterOne.afterRun).congr fun suffix => ⟨?_, fun h => ?_⟩
      · rintro (h | ⟨front, _, rfl, -, c, rest, rfl, hc, hrest⟩)
        · exact .noNames h
        · obtain rfl : c = '/' := by simpa using hc
          exact .names hrest
      · cases h with
        | one hone => contradiction
        | rest => contradiction
        | noNames h => exact .inl h
        | @names front _ rest hrest => exact .inr ⟨front, _, rfl, by simp, '/', rest, rfl, by simp, hrest⟩
  | case5 piece ps hrest hrun hnames ih =>
      refine ih.afterOne.congr fun suffix => ⟨?_, fun h => ?_⟩
      · rintro ⟨c, rest, rfl, hc, hrest⟩
        exact .one hc hrest
      · cases h with
        | @one _ c _ rest hc hrest => exact ⟨c, rest, rfl, hc, hrest⟩
        | run => exact absurd rfl hrun
        | rest | noNames | names => exact absurd rfl hnames

/-- A path is accepted just if the pieces stand for its text. -/
theorem accepts_iff {path : String} : accepts ps path = true ↔ Matches ps path.toList :=
  (suffixes_marks path.toList ps).head

/-! ## Spelling -/

/-- A text of a pattern spells a row of pieces. -/
inductive Spells : List Char → List Piece → Prop
  | nil : Spells [] []
  | char {c cs ps} : c ∉ ['?', '*', '['] → Spells cs ps → Spells (c :: cs) (.char c :: ps)
  | anyChar {cs ps} : Spells cs ps → Spells ('?' :: cs) (.anyChar :: ps)
  | anyRun {cs ps} : Spells cs ps → Spells ('*' :: cs) (.anyRun :: ps)
  /-- A set, which is one piece and does not stand for a slash, whatever is inside. -/
  | set {inside after piece ps} : piece.isChar '/' = false → piece ≠ .anyRun → piece ≠ .anyNames →
      Spells after ps → Spells ('[' :: (inside ++ ']' :: after)) (piece :: ps)
  | names {cs ps} : Spells cs ps → Spells ('*' :: '*' :: '/' :: cs) (.anyNames :: ps)
  | rest : Spells ['*', '*'] [.anyNames]

/-- The set behind an opening bracket ends with a bracket, and stands for a character other than a slash. -/
theorem members_some {rest after : List Char} {members : List (Char × Char)}
    (h : members? rest = some (members, after)) : ∃ inside, rest = inside ++ ']' :: after := by
  unfold members? at h
  split at h
  · cases h
  · rename_i first rest
    split at h
    · cases h
    · rename_i bracket after' hdrop
      obtain rfl : bracket = ']' := by
        have hhead := List.head?_dropWhile_not (· ≠ ']') rest
        rw [hdrop] at hhead
        simpa using hhead
      cases h
      refine ⟨first :: rest.takeWhile (· ≠ ']'), ?_⟩
      rw [List.cons_append, ← hdrop, List.takeWhile_append_dropWhile]

theorem set_some {rest after : List Char} {piece : Piece} (h : set? rest = some (piece, after)) :
    (∃ inside, rest = inside ++ ']' :: after) ∧ piece.isChar '/' = false ∧ piece ≠ .anyRun ∧ piece ≠ .anyNames := by
  unfold set? at h
  split at h
  · obtain ⟨⟨members, after'⟩, hmembers, heq⟩ := Option.map_eq_some_iff.mp h
    cases heq
    obtain ⟨inside, rfl⟩ := members_some hmembers
    exact ⟨⟨'!' :: inside, rfl⟩, rfl, by simp, by simp⟩
  · obtain ⟨⟨members, after'⟩, hmembers, heq⟩ := Option.map_eq_some_iff.mp h
    cases heq
    exact ⟨members_some hmembers, rfl, by simp, by simp⟩

theorem map_cons_ok {x : Except GlobError (List Piece)} {piece : Piece} (h : x.map (piece :: ·) = .ok ps) :
    ∃ ps', x = .ok ps' ∧ ps = piece :: ps' := by
  cases x with
  | error => cases h
  | ok ps' => exact ⟨ps', rfl, (Except.ok.inj h).symm⟩

theorem spells_of_pieces {n index : Nat} {before : Option Char} {cs : List Char}
    (h : pieces n index before cs = .ok ps) (hn : cs.length ≤ n) : Spells cs ps := by
  fun_induction pieces n index before cs generalizing ps with
  | case1 _ _ cs =>
      obtain rfl : cs = [] := List.length_eq_zero_iff.mp (Nat.le_zero.mp hn)
      cases h
      exact .nil
  | case2 =>
      cases h
      exact .nil
  | case5 =>
      cases h
      exact .rest
  | case3 _ _ _ _ ih =>
      obtain ⟨ps', hps', rfl⟩ := map_cons_ok h
      exact .anyChar (ih hps' (Nat.le_of_succ_le_succ hn))
  | case6 _ _ _ _ after _ ih =>
      obtain ⟨ps', hps', rfl⟩ := map_cons_ok h
      simp only [List.length_cons] at hn
      exact .names (ih hps' (by omega))
  | case9 _ _ _ _ _ _ ih =>
      obtain ⟨ps', hps', rfl⟩ := map_cons_ok h
      exact .anyRun (ih hps' (Nat.le_of_succ_le_succ hn))
  | case11 _ _ _ rest piece after hset ih =>
      obtain ⟨ps', hps', rfl⟩ := map_cons_ok h
      obtain ⟨⟨inside, rfl⟩, hslash, hrun, hnames⟩ := set_some hset
      simp only [List.length_cons, List.length_append] at hn
      exact .set hslash hrun hnames (ih hps' (by omega))
  | case12 _ _ _ c rest hone hrun hset ih =>
      obtain ⟨ps', hps', rfl⟩ := map_cons_ok h
      exact .char (by simpa using ⟨hone, hrun, hset⟩) (ih hps' (Nat.le_of_succ_le_succ hn))
  | case4 | case7 | case8 | case10 => cases h

/-- The pieces of a pattern are those that its text spells. -/
theorem spells_of_parse {pattern : String} (h : parse pattern = .ok ps) : Spells pattern.toList ps :=
  spells_of_pieces h (Nat.le_refl _)

/-! ## Steps -/

theorem hasTwoStars_cons {c : Char} {rest : List Char} (h : hasTwoStars (c :: rest) = false) :
    hasTwoStars rest = false := by
  unfold hasTwoStars at h
  split at h
  · contradiction
  · rename_i heq
    rw [(List.cons.inj heq).2]
    exact h
  · contradiction

theorem hasTwoStars_append (front : List Char) {rest : List Char} (h : hasTwoStars (front ++ rest) = false) :
    hasTwoStars rest = false := by
  induction front with
  | nil => exact h
  | cons c front ih => exact ih (hasTwoStars_cons h)

/-- A name that leads nowhere in a pattern stands for itself only. -/
structure Follows (seen taken : List Char) : Prop where
  seen_name : '/' ∉ seen
  taken_name : '/' ∉ taken
  idle : isIdle seen = true → taken = seen

theorem Follows.nil : Follows [] [] := ⟨by simp, by simp, fun _ => rfl⟩

theorem Follows.busy_le {seen taken : List Char} (h : Follows seen taken) : busy taken ≤ busy seen := by
  rw [Path.busy_name h.seen_name, Path.busy_name h.taken_name]
  by_cases hidle : isIdle seen = true
  · exact Nat.le_of_eq (by rw [h.idle hidle])
  · rw [if_neg hidle]
    split <;> omega

theorem Follows.append {seen taken run : List Char} {c : Char} (h : Follows seen taken) (hc : c ≠ '/')
    (hrun : '/' ∉ run) (hdot : c = '.' → run = ['.']) : Follows (seen ++ [c]) (taken ++ run) where
  seen_name := by simpa [h.seen_name] using hc.symm
  taken_name := by simp [h.taken_name, hrun]
  idle hidle := by
    obtain ⟨rfl, rfl⟩ := Path.isIdle_append_one hidle
    rw [h.idle rfl, hdot rfl]

/-- A text that matches takes no more steps than the pattern does. In front of both stand the names that are
open where this is looked at. -/
theorem Spells.busy_le {cs : List Char} (h : Spells cs ps) (hstars : hasTwoStars cs = false)
    (hmatches : Matches ps text) {seen taken : List Char} (hfollows : Follows seen taken) :
    busy (taken ++ text) ≤ busy (seen ++ cs) := by
  induction h generalizing text seen taken with
  | nil =>
      cases hmatches
      simpa using hfollows.busy_le
  | @char c cs ps hc _ ih =>
      cases hmatches with
      | @one _ d _ text hd hrest =>
          obtain rfl : d = c := by simpa [Piece.isChar] using hd
          by_cases hslash : d = '/'
          · subst hslash
            have hle := ih (hasTwoStars_cons hstars) hrest .nil
            rw [Path.busy_slash, Path.busy_slash]
            exact Nat.add_le_add hfollows.busy_le hle
          · rw [List.append_cons taken, List.append_cons seen]
            exact ih (hasTwoStars_cons hstars) hrest
              (hfollows.append hslash (by simpa using Ne.symm hslash) fun hdot => by rw [hdot])
  | @anyChar cs ps _ ih =>
      cases hmatches with
      | @one _ d _ text hd hrest =>
          have hslash : d ≠ '/' := by simpa [Piece.isChar] using hd
          rw [List.append_cons taken, List.append_cons seen]
          exact ih (hasTwoStars_cons hstars) hrest
            (hfollows.append (by decide) (by simpa using hslash.symm) (absurd · (by decide)))
  | @anyRun cs ps _ ih =>
      cases hmatches with
      | one hd => contradiction
      | @run run _ text hrun hrest =>
          rw [← List.append_assoc, List.append_cons seen]
          exact ih (hasTwoStars_cons hstars) hrest
            (hfollows.append (by decide) (fun hmem => hrun _ hmem rfl) (absurd · (by decide)))
  | @set inside after piece ps hpiece hrun hnames _ ih =>
      cases hmatches with
      | @one _ d _ text hd hrest =>
          have hslash : d ≠ '/' := by
            rintro rfl
            rw [hpiece] at hd
            contradiction
          -- What is inside a set may look like names, but the last of them is open behind the bracket.
          obtain ⟨steps, last, hlast, hbusy⟩ := Path.busy_split (seen ++ '[' :: inside)
          have hopen : Follows (last ++ [']']) (taken ++ [d]) :=
            ⟨by simp [hlast], by simp [hfollows.taken_name, hslash.symm],
              fun hidle => absurd (Path.isIdle_append_one hidle).2 (by decide)⟩
          have hle := ih (hasTwoStars_append ('[' :: (inside ++ [']'])) (by simpa using hstars)) hrest hopen
          have hcs : seen ++ '[' :: (inside ++ ']' :: after) = (seen ++ '[' :: inside) ++ ']' :: after := by simp
          rw [hcs, hbusy, List.append_cons last, List.append_cons taken]
          exact Nat.le_add_left_of_le hle
      | run => contradiction
      | rest | noNames | names => contradiction
  | names | rest => simp [hasTwoStars] at hstars

/-- Without `**`, a path that matches has at most as many steps as the pattern. -/
theorem depth_le_of_accepts {pattern path : String} (hparse : parse pattern = .ok ps)
    (hstars : hasTwoStars pattern.toList = false) (h : accepts ps path = true) :
    Path.depth path ≤ Path.depth pattern := by
  have hmatches := accepts_iff.mp h
  have hspells := spells_of_parse hparse
  by_cases hpath : path = ""
  · rw [hpath]
    exact Nat.zero_le _
  · have hpattern : pattern ≠ "" := by
      rintro rfl
      cases hspells
      generalize htext : path.toList = text at hmatches
      cases hmatches
      exact Path.ne_empty_iff.mp hpath htext
    have hletter : Follows ['x'] ['x'] := ⟨by decide, by decide, fun _ => rfl⟩
    rw [Path.depth_eq_busy hpath, Path.depth_eq_busy hpattern]
    exact hspells.busy_le hstars hmatches hletter

/-! ## Patterns that begin without wildcards -/

theorem Spells.literal {front cs : List Char} (h : Spells (front ++ cs) ps)
    (hfront : ∀ c ∈ front, c ∉ ['?', '*', '[']) (hmatches : Matches ps text) : ∃ rest, text = front ++ rest := by
  induction front generalizing ps text with
  | nil => exact ⟨text, rfl⟩
  | cons c front ih =>
      obtain ⟨hc, hfront⟩ := List.forall_mem_cons.mp hfront
      generalize hcs : c :: front ++ cs = cs' at h
      cases h with
      | nil => cases hcs
      | char _ hspells =>
          obtain ⟨rfl, rfl⟩ := List.cons.inj hcs
          cases hmatches with
          | @one _ d _ _ hd hrest =>
              obtain ⟨rest, rfl⟩ := ih hspells hfront hrest
              obtain rfl : d = c := by simpa [Piece.isChar] using hd
              exact ⟨rest, rfl⟩
      | anyChar | anyRun | set | names | rest =>
          obtain ⟨rfl, -⟩ := List.cons.inj hcs
          simp at hc

/-- A pattern that begins without wildcards matches only paths with the same beginning. -/
theorem accepts_literal {pattern path : String} {front cs : List Char} (hparse : parse pattern = .ok ps)
    (hpattern : pattern.toList = front ++ cs) (hfront : ∀ c ∈ front, c ∉ ['?', '*', '['])
    (h : accepts ps path = true) : ∃ rest, path.toList = front ++ rest :=
  (hpattern ▸ spells_of_parse hparse).literal hfront (accepts_iff.mp h)

theorem pieces_literal {front cs : List Char} (hfront : ∀ c ∈ front, c ∉ ['?', '*', '[']) (n index : Nat)
    (before : Option Char) :
    pieces (front.length + n) index before (front ++ cs) =
      (pieces n (index + front.length) (front.getLast?.or before) cs).map (front.map Piece.char ++ ·) := by
  induction front generalizing index before with
  | nil =>
      show pieces (0 + n) index before cs = (pieces n index before cs).map id
      rw [Nat.zero_add]
      cases pieces n index before cs <;> rfl
  | cons c front ih =>
      obtain ⟨hc, hfront⟩ := List.forall_mem_cons.mp hfront
      have hlast : (c :: front).getLast?.or before = front.getLast?.or (some c) := by
        rw [List.getLast?_cons]
        cases front.getLast? <;> rfl
      have hone : pieces (front.length + n + 1) index before (c :: (front ++ cs)) =
          (pieces (front.length + n) (index + 1) (some c) (front ++ cs)).map (.char c :: ·) := by
        simp only [List.mem_cons, List.not_mem_nil, or_false, not_or] at hc
        rw [pieces]
        exacts [hc.1, hc.2.1, hc.2.2]
      rw [List.length_cons, Nat.add_right_comm, List.cons_append, hone, ih hfront, hlast, Nat.add_assoc,
        Nat.add_comm 1]
      cases pieces n _ _ cs <;> rfl

theorem Matches.literal {front : List Char} (h : Matches ps text) :
    Matches (front.map Piece.char ++ ps) (front ++ text) := by
  induction front with
  | nil => exact h
  | cons c front ih => exact .one (by simp [Piece.isChar]) ih

/-- Behind a path without wildcards, `**` matches everything below it. -/
theorem matches_below {root : String} (hroot : ∀ c ∈ root.toList, c ∉ ['?', '*', '[']) :
    ∃ ps, parse (root ++ "/**") = .ok ps ∧
      ∀ path rest, path.toList = root.toList ++ '/' :: rest → accepts ps path = true := by
  have hpattern : (root ++ "/**").toList = (root.toList ++ ['/']) ++ ['*', '*'] := by simp
  have hfront : ∀ c ∈ root.toList ++ ['/'], c ∉ ['?', '*', '['] := by
    intro c hc
    obtain hc | hc := List.mem_append.mp hc
    · exact hroot c hc
    · simp [List.mem_singleton.mp hc]
  refine ⟨(root.toList ++ ['/']).map Piece.char ++ [.anyNames], ?_, ?_⟩
  · rw [parse, hpattern, List.length_append, pieces_literal hfront, List.getLast?_concat]
    rfl
  · intro path rest hpath
    have hbelow : path.toList = (root.toList ++ ['/']) ++ rest := by
      rw [hpath, List.append_assoc]
      rfl
    rw [accepts_iff, hbelow]
    exact Matches.rest.literal

end Esql.Files.Glob
