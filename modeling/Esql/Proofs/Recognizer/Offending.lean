import Esql.Proofs.Recognizer.Located
import Esql.Proofs.Tokens.Spelling

/-!
# `Proofs.Recognizer.Offending` — what is found is not what was expected

A diagnostic names a token that does not fit and what was expected in its place. What was expected has been looked for
and has not been seen, so one would not expect the text of the token among it. But a terminal may have been looked for
in one mode and the token may be shown in another. The commands that follow a list of index patterns or of name patterns
are read as expressions, and what the list might have gone on with is still noted then (`Look.lingers`).

For the separators of lists this makes no difference, since they are the same in every mode. It does for the three words
that may follow a list, where a character stands right behind the word that makes the token longer in the mode of the
list: `offending_unexpected` says that there is no other exception, and `offending_expected` shows one.

Which looks may be noted where a plan refuses a token is found by running through the rules (`Plan.settles`); the looks
that are noted in a state, and have not seen what they look for, are carried along a run (`Hears`).

## Contents
- Looks that linger, and looks that suit the mode of a refusal.
- `Plan.settles`: what may be noted at each node of a plan.
- `Hears`, in every state of a run.
- `offending_unexpected`.
-/

namespace Esql.Syntax

open State
open Esql.Text (Position)
open Relation (ReflTransGen)

variable {limit : Nat} {mode : Mode} {s s' : State} {here : Cursor} {l : Look}

/-! ## Looks and what is found in their place -/

namespace Look

/-- The look may be noted still when the list in which it was noted is over. -/
def lingers (l : Look) : Bool :=
  l.1 = .expression ||
    [((.source, .kind .comma) : Look), (.source, .word .METADATA), (.pattern, .kind .comma), (.pattern, .kind .assign),
      (.pattern, .word .ON), (.pattern, .word .WITH)].contains l

/-- A token with the text of what is looked for is what is looked for. -/
def clear (l : Look) : Bool :=
  match l.2 with
  | .kind k => if k.sign?.isSome then l.1.knows k else k ≠ .endOfText
  | .word _ | .name => true

/-- The look may be noted where a token is refused in this mode. -/
def suits (mode : Mode) (l : Look) : Bool := if mode = .expression then l.lingers else l.1 = mode && l.clear

end Look

/-- The next token is none that is looked for. -/
def Unseen (here : Cursor) (l : Look) : Prop := ¬Sees l.1 [l.2] here

theorem unseen_of_isAmong {wanted : List Terminal} {token : Token} (hnext : here.next mode = .ok token)
    (hamong : token.isAmong wanted = false) : ∀ l ∈ looksFor mode wanted, Unseen here l := by
  intro l hl hsees
  have hany : Sees mode wanted here := sees_iff.mpr ⟨l, hl, hsees⟩
  obtain ⟨token', hnext', hamong'⟩ := hany
  rw [hnext] at hnext'
  obtain rfl := Except.ok.inj hnext'
  rw [hamong] at hamong'
  cases hamong'

/-! ## What may be noted -/

/-- The phrases that begin right behind a token that was taken. -/
def Rule.isWhole : Rule → Bool
  | .indexList | .metadataFields | .indexPattern | .renameField | .enrichField | .namePatterns | .namePattern => true
  | _ => false

/-- The phrases at whose end nothing is noted. -/
def Rule.isQuiet : Rule → Bool
  | .namePattern => true
  | _ => false

/-- What is noted is such that a phrase of this rule can begin. -/
def Rule.mayBegin (rule : Rule) (fresh : Bool) (noted : List Look) : Bool :=
  noted.all Look.lingers && (!rule.isWhole || (fresh && noted.isEmpty))

/-- Whatever is noted where the plan refuses a token suits the mode, and what it wants there has been looked for. On the
    way `missed` has been looked for and `noted` has been noted; what was noted before lingers, and is nothing if the
    plan is `fresh`. A plan that is `quiet` comes to its end with nothing noted. -/
def Plan.settles (quiet : Bool) : Bool → List Look → List Look → Plan → Bool
  | fresh, _, noted, done => noted.all Look.lingers && (!quiet || (fresh && noted.isEmpty))
  | fresh, missed, noted, reject mode wanted =>
    (looksFor mode wanted).all missed.contains && (mode = .expression || fresh) &&
      (noted ++ looksFor mode wanted).all (Look.suits mode)
  | fresh, missed, noted, look mode wanted yes no =>
    yes.settles quiet fresh missed noted && no.settles quiet fresh (missed ++ looksFor mode wanted) noted
  | fresh, missed, noted, take mode wanted yes no =>
    yes.settles quiet true [] [] &&
      no.settles quiet fresh (missed ++ looksFor mode wanted) (noted ++ looksFor mode wanted)
  | fresh, missed, noted, extend mode wanted yes no =>
    yes.settles quiet true [] [] && no.settles quiet fresh (missed ++ looksFor mode wanted) noted
  | fresh, _, noted, call rule next => rule.mayBegin fresh noted && next.settles quiet rule.isQuiet [] []
  | fresh, _, noted, jump rule => rule.mayBegin fresh noted && rule.isQuiet = quiet
  | fresh, missed, noted, opener next => next.settles quiet fresh missed noted
  | fresh, _, noted, enter rule next => rule.mayBegin fresh noted && next.settles quiet false [] []
  | _, _, noted, target next => noted.all Look.lingers && next.settles quiet false [] []

theorem Rule.settles (rule : Rule) : rule.plan.settles rule.isQuiet rule.isWhole [] [] = true := by
  cases rule <;> decide +kernel

/-- The plans that wait for a phrase settle, where nothing is noted at its end if it is quiet. -/
def StackSettles : Bool → List Frame → Prop
  | _, [] => True
  | quiet, .resume plan :: stack => ∃ waits, plan.settles waits quiet [] [] = true ∧ StackSettles waits stack
  | _, .leave :: stack => StackSettles false stack

/-! ## What is noted -/

/-- What is expected at a place was noted by some looks, first by plans `before` and then by the plan at hand. -/
structure Notes (here : Cursor) (expected : List Terminal) (fresh : Bool) (before noted : List Look) : Prop where
  expected : expected = (before ++ noted).map Prod.snd
  lingers : ∀ l ∈ before, l.lingers = true
  fresh : fresh = true → before = []
  unseen : ∀ l ∈ before ++ noted, Unseen here l

/-- What is noted in a state comes from looks that have not seen what they look for, and that suit the mode wherever the
    plan at hand or one that waits refuses a token. -/
structure Hears (s : State) (quiet fresh : Bool) (missed noted : List Look) : Prop where
  plan : s.plan.settles quiet fresh missed noted = true
  stack : StackSettles quiet s.stack
  missed : ∀ l ∈ missed, Unseen s.cursor l
  notes : ∃ before, Notes s.cursor s.expected fresh before noted

variable {fresh quiet : Bool} {missed noted before : List Look} {expected : List Terminal}

/-- What is noted still lingers when a phrase is over, when another one begins, or when a target has been looked for. -/
theorem Notes.settle (h : Notes here expected fresh before noted) (hlingers : noted.all Look.lingers = true)
    {fresh' : Bool} (hfresh : fresh' = true → fresh = true ∧ noted = []) :
    Notes here expected fresh' (before ++ noted) [] where
  expected := by rw [h.expected, List.append_nil]
  lingers := by
    intro l hl
    rcases List.mem_append.mp hl with hl | hl
    · exact h.lingers l hl
    · exact List.all_eq_true.mp hlingers l hl
  fresh := by
    intro hfresh'
    obtain ⟨hbefore, hnone⟩ := hfresh hfresh'
    rw [h.fresh hbefore, hnone]
    rfl
  unseen := by
    rw [List.append_nil]
    exact h.unseen

/-- Behind a token that is taken nothing is noted. -/
theorem notes_nothing (here : Cursor) (fresh : Bool) : Notes here [] fresh [] [] :=
  ⟨rfl, fun _ h => absurd h List.not_mem_nil, fun _ => rfl, fun _ h => absurd h List.not_mem_nil⟩

theorem start_hears (text : List Char) : Hears (start text) false false [] [] :=
  ⟨Rule.settles .statement, trivial, fun _ h => absurd h List.not_mem_nil,
    ⟨[], notes_nothing _ _⟩⟩

theorem mayBegin_iff {rule : Rule} (h : rule.mayBegin fresh noted = true) :
    noted.all Look.lingers = true ∧ (rule.isWhole = true → fresh = true ∧ noted = []) := by
  simp only [Rule.mayBegin, Bool.and_eq_true, Bool.or_eq_true, Bool.not_eq_true', List.isEmpty_iff] at h
  obtain ⟨hlingers, hwhole⟩ := h
  refine ⟨hlingers, fun hrule => hwhole.resolve_left ?_⟩
  rw [hrule]
  exact Bool.noConfusion

theorem unseen_append {looks looks' : List Look} (h : ∀ l ∈ looks, Unseen here l) (h' : ∀ l ∈ looks', Unseen here l) :
    ∀ l ∈ looks ++ looks', Unseen here l :=
  List.forall_mem_append.mpr ⟨h, h'⟩

/-- **What a move keeps.** One case for each way of going on. -/
theorem Moves.hears (h : Moves limit s s') (hs : Hears s quiet fresh missed noted) :
    ∃ quiet fresh missed noted, Hears s' quiet fresh missed noted := by
  obtain ⟨hplan, hstack, hmissed, before, hnotes⟩ := hs
  have hnothing : ∀ l ∈ ([] : List Look), Unseen s'.cursor l := fun _ h => absurd h List.not_mem_nil
  cases h with
  | @resume plan stack hdone hframes =>
      rw [hdone] at hplan
      simp only [Plan.settles, Bool.and_eq_true, Bool.or_eq_true, Bool.not_eq_true', List.isEmpty_iff] at hplan
      obtain ⟨hlingers, hquiet⟩ := hplan
      rw [hframes] at hstack
      obtain ⟨waits, hwaits, hstack⟩ := hstack
      refine ⟨waits, quiet, [], [], hwaits, hstack, hnothing, before ++ noted, ?_⟩
      refine hnotes.settle hlingers fun hq => hquiet.resolve_left ?_
      rw [hq]
      exact Bool.noConfusion
  | @leave stack hdone hframes =>
      rw [hdone] at hplan
      simp only [Plan.settles, Bool.and_eq_true] at hplan
      rw [hframes] at hstack
      exact ⟨false, false, [], [], rfl, hstack, hnothing, before ++ noted,
        hnotes.settle hplan.1 fun h => absurd h Bool.false_ne_true⟩
  | seen hlook hnext hamong =>
      rw [hlook] at hplan
      simp only [Plan.settles, Bool.and_eq_true] at hplan
      exact ⟨quiet, fresh, missed, noted, hplan.1, hstack, hmissed, before, hnotes⟩
  | unseen hlook hnext hamong =>
      rw [hlook] at hplan
      simp only [Plan.settles, Bool.and_eq_true] at hplan
      exact ⟨quiet, fresh, _, noted, hplan.2, hstack, unseen_append hmissed (unseen_of_isAmong hnext hamong), before,
        hnotes⟩
  | take htake hnext hamong | extend htake hnext hamong =>
      rw [htake] at hplan
      simp only [Plan.settles, Bool.and_eq_true] at hplan
      exact ⟨quiet, true, [], [], hplan.1, hstack, hnothing, [], notes_nothing _ _⟩
  | miss htake hnext hamong =>
      rw [htake] at hplan
      simp only [Plan.settles, Bool.and_eq_true] at hplan
      have hunseen := unseen_of_isAmong hnext hamong
      refine ⟨quiet, fresh, _, _, hplan.2, hstack, unseen_append hmissed hunseen, before, ?_, hnotes.lingers,
        hnotes.fresh, ?_⟩
      · show s.expected ++ _ = _
        rw [hnotes.expected]
        simp [looksFor, Function.comp_def]
      · rw [← List.append_assoc]
        exact unseen_append hnotes.unseen hunseen
  | pass hextend hnext hamong =>
      rw [hextend] at hplan
      simp only [Plan.settles, Bool.and_eq_true] at hplan
      exact ⟨quiet, fresh, _, noted, hplan.2, hstack, unseen_append hmissed (unseen_of_isAmong hnext hamong), before,
        hnotes⟩
  | @call rule next hcall =>
      rw [hcall] at hplan
      simp only [Plan.settles, Bool.and_eq_true] at hplan
      obtain ⟨hlingers, hwhole⟩ := mayBegin_iff hplan.1
      exact ⟨rule.isQuiet, rule.isWhole, [], [], rule.settles, ⟨quiet, hplan.2, hstack⟩, hnothing, before ++ noted,
        hnotes.settle hlingers hwhole⟩
  | @jump rule hjump =>
      rw [hjump] at hplan
      simp only [Plan.settles, Bool.and_eq_true, decide_eq_true_eq] at hplan
      obtain ⟨hlingers, hwhole⟩ := mayBegin_iff hplan.1
      rw [← hplan.2] at hstack
      exact ⟨rule.isQuiet, rule.isWhole, [], [], rule.settles, hstack, hnothing, before ++ noted,
        hnotes.settle hlingers hwhole⟩
  | opener hopener hnext =>
      rw [hopener] at hplan
      exact ⟨quiet, fresh, missed, noted, hplan, hstack, hmissed, before, hnotes⟩
  | @enter rule next henter hdepth =>
      rw [henter] at hplan
      simp only [Plan.settles, Bool.and_eq_true] at hplan
      obtain ⟨hlingers, hwhole⟩ := mayBegin_iff hplan.1
      exact ⟨rule.isQuiet, rule.isWhole, [], [], rule.settles, ⟨quiet, hplan.2, hstack⟩, hnothing, before ++ noted,
        hnotes.settle hlingers hwhole⟩
  | target htarget _ =>
      rw [htarget] at hplan
      simp only [Plan.settles, Bool.and_eq_true] at hplan
      exact ⟨quiet, false, [], [], hplan.2, hstack, hnothing, [], notes_nothing _ _⟩
  | noTarget htarget _ =>
      rw [htarget] at hplan
      simp only [Plan.settles, Bool.and_eq_true] at hplan
      exact ⟨quiet, false, [], [], hplan.2, hstack, hnothing, before ++ noted,
        hnotes.settle hplan.1 fun h => absurd h Bool.false_ne_true⟩

/-- By induction on the run: what is noted in a state of a run has been looked for and not seen. -/
theorem runs_hear {text : List Char} (h : ReflTransGen (Moves limit) (start text) s) :
    ∃ quiet fresh missed noted, Hears s quiet fresh missed noted := by
  induction h with
  | refl => exact ⟨_, _, _, _, start_hears text⟩
  | tail _ hmoves ih =>
      obtain ⟨quiet, fresh, missed, noted, hs⟩ := ih
      exact hmoves.hears hs

/-- Where a token is refused, whatever is expected has been looked for in a mode that suits, and has not been seen. -/
theorem Hears.refused {wanted : List Terminal} (hs : Hears s quiet fresh missed noted)
    (hplan : s.plan = .reject mode wanted) :
    ∀ t ∈ s.expected ++ wanted, ∃ l : Look, l.2 = t ∧ l.suits mode = true ∧ Unseen s.cursor l := by
  obtain ⟨hsettles, -, hmissed, before, hnotes⟩ := hs
  rw [hplan] at hsettles
  simp only [Plan.settles, Bool.and_eq_true, Bool.or_eq_true, decide_eq_true_eq] at hsettles
  obtain ⟨⟨hwanted, hmode⟩, hsuits⟩ := hsettles
  have hsuits' := List.all_eq_true.mp hsuits
  intro t ht
  rcases List.mem_append.mp ht with ht | ht
  · rw [hnotes.expected] at ht
    obtain ⟨l, hl, rfl⟩ := List.mem_map.mp ht
    refine ⟨l, rfl, ?_, hnotes.unseen l hl⟩
    rcases List.mem_append.mp hl with hl | hl
    · -- Only where an expression is read, something may be left from before.
      rcases hmode with rfl | hfresh
      · rw [Look.suits, if_pos rfl]
        exact hnotes.lingers l hl
      · rw [hnotes.fresh hfresh] at hl
        exact absurd hl List.not_mem_nil
    · exact hsuits' l (List.mem_append_left _ hl)
  · have hl : (mode, t) ∈ looksFor mode wanted := List.mem_map.mpr ⟨t, ht, rfl⟩
    have hmem : (mode, t) ∈ missed := List.contains_iff_mem.mp (List.all_eq_true.mp hwanted _ hl)
    exact ⟨(mode, t), rfl, hsuits' _ (List.mem_append_right _ hl), hmissed _ hmem⟩

/-! ## What is found -/

variable {token : Token}

/-- A look at a token with the text of what is looked for sees it, if the mode knows what it looks for. -/
theorem seen_of_spelling (hnext : here.next l.1 = .ok token) (hmode : l.1 = .expression ∨ l.clear = true)
    (hspelling : l.2.spelling? = some (token.text.map Char.toLower)) : Sees l.1 [l.2] here := by
  refine sees_single_iff.mpr ⟨token, hnext, ?_⟩
  obtain ⟨m, t⟩ := l
  cases t with
  | kind k =>
      have hknows : m.knows k = true := by
        rcases hmode with rfl | hclear
        · rfl
        · have hsome : k.sign?.isSome = true := Option.isSome_iff_exists.mpr ⟨_, hspelling⟩
          simpa [Look.clear, hsome] using hclear
      simpa [Terminal.accepts] using kind_of_sign hnext hknows hspelling
  | word w =>
      have hkeyword : token.keyword = some w := keyword_of_spelling hnext (Option.some.inj hspelling).symm
      simpa [Terminal.accepts] using hkeyword
  | name => cases hspelling

/-- A character stands right behind the token that makes a word longer in this mode, though not in an expression. -/
def GoesOn (mode : Mode) (token : Token) : Prop :=
  ∃ d behind, token.rest = d :: behind ∧ isWordChar d = false ∧ mode.joins d behind.head? = true

/-- The words that may follow a list, with the mode of the list. -/
def listWords : List Look := [(.source, .word .METADATA), (.pattern, .word .ON), (.pattern, .word .WITH)]

/-- **What is found is not what was looked for.** A token whose text is that of a terminal that was looked for and not
    seen is a word behind a list, and it goes on in the mode of the list. -/
theorem spelled_unseen (hnext : here.next mode = .ok token) (hsuits : l.suits mode = true) (hunseen : Unseen here l)
    (hspelling : l.2.spelling? = some (token.text.map Char.toLower)) : l ∈ listWords ∧ GoesOn l.1 token := by
  by_cases hmode : mode = .expression
  · subst hmode
    rw [Look.suits, if_pos rfl, Look.lingers, Bool.or_eq_true, decide_eq_true_eq, List.contains_iff_mem] at hsuits
    -- A separator of a list is the same token in every mode.
    have hsharp : ∀ m k, k.isSharp = true → l = (m, .kind k) → False := by
      rintro m k hk rfl
      have hkind : token.kind = k := kind_of_sign hnext rfl hspelling
      have hnext' : here.next m = .ok token := next_sharp hnext (hkind ▸ hk) m
      exact hunseen (sees_single_iff.mpr ⟨token, hnext', by simpa [Terminal.accepts] using hkind⟩)
    have hword : ∀ m w, l = (m, .word w) → GoesOn l.1 token := by
      rintro m w rfl
      rcases next_word_in hnext (Option.some.inj hspelling).symm m with hgoes | ⟨token', hnext', hkeyword⟩
      · exact hgoes
      · exact absurd (sees_single_iff.mpr ⟨token', hnext', by simpa [Terminal.accepts] using hkeyword⟩) hunseen
    rcases hsuits with hexpression | hlist
    · refine absurd (seen_of_spelling ?_ (.inl hexpression) hspelling) hunseen
      rw [hexpression]
      exact hnext
    · simp only [List.mem_cons, List.not_mem_nil, or_false] at hlist
      rcases hlist with hl | hl | hl | hl | hl | hl
      · exact (hsharp _ _ rfl hl).elim
      · exact ⟨by rw [hl]; decide, hword _ _ hl⟩
      · exact (hsharp _ _ rfl hl).elim
      · exact (hsharp _ _ rfl hl).elim
      · exact ⟨by rw [hl]; decide, hword _ _ hl⟩
      · exact ⟨by rw [hl]; decide, hword _ _ hl⟩
  · rw [Look.suits, if_neg hmode, Bool.and_eq_true, decide_eq_true_eq] at hsuits
    obtain ⟨rfl, hclear⟩ := hsuits
    exact absurd (seen_of_spelling hnext (.inr hclear) hspelling) hunseen

/-- Only in an index pattern a token may have the name of the end of the text as its text. -/
theorem kind_of_shown_end (hnext : here.next mode = .ok token) (hmode : mode ≠ .source) (h : token.shown = "<EOF>") :
    token.kind = .endOfText := by
  refine Decidable.byContradiction fun hkind => ?_
  have htext : token.text = ['<', 'E', 'O', 'F', '>'] := by
    rw [Token.shown, if_neg hkind] at h
    have hlist := congrArg String.toList h
    rwa [String.toList_ofList] at hlist
  obtain ⟨gap, hgap⟩ := next_ok hnext
  obtain hend | ⟨c, u, kind, hu, hform, -⟩ := hgap.form
  · rw [hend] at htext
    cases htext
  · obtain ⟨rfl, rfl⟩ := List.cons.inj (hu.symm.trans htext)
    cases mode with
    | expression | pattern => cases hform
    | source => exact hmode rfl

/-- The end of the text is not expected where it is found. -/
theorem end_unexpected (hnext : here.next mode = .ok token) (hsuits : l.suits mode = true) (hunseen : Unseen here l)
    (hshown : token.shown = "<EOF>") : l.2 ≠ .kind .endOfText := by
  intro hl
  by_cases hmode : mode = .source
  · subst hmode
    rw [Look.suits, if_neg (by decide), Bool.and_eq_true, Look.clear, hl] at hsuits
    exact absurd hsuits.2 (by simp [Kind.sign?])
  · have hkind := kind_of_shown_end hnext hmode hshown
    have hnext' : here.next l.1 = .ok token := next_sharp hnext (by rw [hkind]; rfl) l.1
    refine hunseen (sees_single_iff.mpr ⟨token, hnext', ?_⟩)
    rw [hl]
    simpa [Terminal.accepts] using hkind

/-! ## What is expected -/

/-- The label quotes a keyword or an operator that the text spells, in capitals or not. -/
def SpelledBy (label found : String) : Prop :=
  label = "'" ++ String.ofList (found.toList.map Char.toLower) ++ "'"

instance (label found : String) : Decidable (SpelledBy label found) := inferInstanceAs (Decidable (_ = _))

/-- The end of the text has a name that spells no terminal. -/
theorem spelling_ne_end (t : Terminal) : t.spelling? ≠ some ("<EOF>".toList.map Char.toLower) := by
  cases t with
  | kind k => cases k <;> decide
  | word w => cases w <;> decide
  | name => decide

/-- A text that spells the label of a terminal is the text of the token that is shown. -/
theorem spelling_of_shown {t : Terminal} (h : SpelledBy t.label token.shown) :
    t.spelling? = some (token.text.map Char.toLower) := by
  have hlabel : t.label.toList = inQuotes (token.shown.toList.map Char.toLower) := by
    rw [show t.label = _ from h]
    simp [inQuotes]
  have hspelling := spelling_of_label hlabel
  rw [Token.shown] at hspelling
  split at hspelling
  · exact absurd hspelling (spelling_ne_end t)
  · rwa [String.toList_ofList] at hspelling

/-- **What is found is not among what was expected**, but for three words. A diagnostic that a token does not fit shows
    the piece of the text where it lies. The end of the text is not expected where it is found. If the text that is
    found spells a label of what was expected, the label is that of a word that may follow a list, and a character
    stands right behind it that makes the token longer in the mode of the list: one that an index pattern may hold for
    `metadata`, and a star for `on` and `with`. -/
theorem offending_unexpected {t : String} {place : Position} {found : String} {expected : List Terminal}
    (h : check t = .error ⟨place, .mismatched found expected⟩) :
    (found = "<EOF>" → "<EOF>" ∉ labels expected) ∧
    ∃ before piece after, t.toList = before ++ (piece ++ after) ∧ place = Position.start.after before ∧
      found = shownPiece piece ∧
      ∀ label ∈ labels expected, SpelledBy label found →
        ∃ d behind, after = d :: behind ∧ isWordChar d = false ∧
          (label = "'metadata'" ∧ isSourceChar d behind.head? = true ∨ label ∈ ["'on'", "'with'"] ∧ d = '*') := by
  obtain ⟨s, hruns, hstops⟩ := checkBy_stops {} t.toList
  rw [show checkBy {} t.toList = .error _ from h] at hstops
  obtain ⟨quiet, fresh, missed, noted, hears⟩ := runs_hear hruns
  cases hstops with
  | unrecognised _ hnext =>
      obtain ⟨refused, -, hcause, -⟩ := refused_at (runs_viable hruns).isIn hnext
      cases hcause
  | @mismatch mode wanted token hplan hnext =>
      have hlooks := hears.refused hplan
      have hshows := token_at (runs_viable hruns).isIn hnext
      constructor
      · intro hfound hend
        obtain ⟨t, ht, hlabel⟩ := mem_labels.mp hend
        obtain ⟨l, rfl, hsuits, hunseen⟩ := hlooks t ht
        exact end_unexpected hnext hsuits hunseen hfound (label_eq_end hlabel)
      · obtain ⟨before, htext, hplace, -⟩ := id hshows
        refine ⟨before, token.text, token.rest, htext, hplace, hshows.shown, ?_⟩
        intro label hlabel hspelled
        obtain ⟨t, ht, rfl⟩ := mem_labels.mp hlabel
        obtain ⟨l, rfl, hsuits, hunseen⟩ := hlooks t ht
        obtain ⟨hword, d, behind, hrest, hd, hjoins⟩ :=
          spelled_unseen hnext hsuits hunseen (spelling_of_shown hspelled)
        refine ⟨d, behind, hrest, hd, ?_⟩
        have hstar : isPatternChar d = true → d = '*' := by
          intro hpattern
          simpa [isPatternChar, hd] using hpattern
        simp only [listWords, List.mem_cons, List.not_mem_nil, or_false] at hword
        rcases hword with rfl | rfl | rfl
        · exact .inl ⟨by decide, hjoins⟩
        · exact .inr ⟨by decide, hstar hjoins⟩
        · exact .inr ⟨by decide, hstar hjoins⟩

/-- A keyword in the place of a separator is none of what may stand there. -/
theorem offending_unexpected_where :
    let expected : List Terminal := [.kind .comma, .kind .pipe, .kind .endOfText]
    check "FROM a | KEEP b WHERE" = .error ⟨⟨1, 16⟩, .mismatched "WHERE" expected⟩ ∧
      ("WHERE" = "<EOF>" → "<EOF>" ∉ labels expected) ∧
      ∃ before piece after, "FROM a | KEEP b WHERE".toList = before ++ (piece ++ after) ∧
        (⟨1, 16⟩ : Position) = Position.start.after before ∧ "WHERE" = shownPiece piece ∧
        ∀ label ∈ labels expected, SpelledBy label "WHERE" →
          ∃ d behind, after = d :: behind ∧ isWordChar d = false ∧
            (label = "'metadata'" ∧ isSourceChar d behind.head? = true ∨ label ∈ ["'on'", "'with'"] ∧ d = '*') := by
  intro expected
  have h : check "FROM a | KEEP b WHERE" = .error ⟨⟨1, 16⟩, .mismatched "WHERE" expected⟩ := by rfl
  exact ⟨h, offending_unexpected h⟩

/-- The word `METADATA` in front of a parenthesis, which an index pattern would hold too, is not the word that was
    expected, but it is shown with the same letters. -/
theorem offending_expected :
    ∃ expected, check "FROM a METADATA(b)" = .error ⟨⟨1, 7⟩, .mismatched "METADATA" expected⟩ ∧
      "'metadata'" ∈ labels expected ∧ SpelledBy "'metadata'" "METADATA" := by
  refine ⟨[.kind .comma, .word .METADATA, .kind .pipe, .kind .endOfText], by rfl, by decide, by decide⟩

end Esql.Syntax
