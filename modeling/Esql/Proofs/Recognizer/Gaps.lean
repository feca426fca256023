import Esql.Proofs.Recognizer.Nesting
import Esql.Proofs.Recognizer.Scanned

/-!
# `Proofs.Recognizer.Gaps` — what stands between two tokens does not matter

Where a text has been read up to some place, the trivia that stand there can be exchanged for others: the verdict
stays the same, and a fault behind them stands at the same character (`check_gap`). The new trivia have to begin
with a blank, since a token in front of them might go on otherwise, and must not leave a comment open.

In front of the gap the run on the one text is carried over to the other (`runs_to_seam`); behind it the texts are
cut alike (`Level`), and the runs go in step (`Twins.verdicts`). Between the two the recognizer may look for an
assignment target that reaches over the gap. It has foreseen the name in front, and finds the target just where it
is completed behind (`Scans.targets_iff`).

## Contents
- `Exchange`: the texts, and the places around the gap.
- Openers that are remembered across the gap.
- Twins behind the gap: where a state stands there, and where a target reaches over it.
- `check_gap`.
-/

namespace Esql.Syntax

open State
open Esql.Text (Position isBlank)
open Relation (ReflTransGen)

variable {limit : Nat} {strategy : Strategy} {s s' : State} {a w w' b : List Char}

/-! ## The texts -/

/-- The text `a ++ w ++ b` is read up to the end of `a`, and `w` is all the trivia that stand there. For `w`
stands `w'`, which is trivia as well; it begins with a blank, and no comment is open at its end. -/
structure Exchange (strategy : Strategy) (a w w' b : List Char) : Prop where
  consumes : Consumes strategy (a ++ (w ++ b)) ⟨Position.start.after a, w ++ b⟩
  gap : skipTrivia .nothing (Position.start.after a) (w ++ b) = .ok ⟨Position.start.after (a ++ w), b⟩
  blank : ∃ c, w'.head? = some c ∧ isBlank c = true
  skips : Skips .nothing w' .nothing

/-- The place behind the first part of a text. -/
def behind (a rest : List Char) : Cursor := ⟨Position.start.after a, rest⟩

/-- The same place in what follows the gap. -/
def BehindGap (a w w' b : List Char) (k k' : Cursor) : Prop :=
  ∃ q r, b = q ++ r ∧ k = behind (a ++ w ++ q) r ∧ k' = behind (a ++ w' ++ q) r

theorem behindGap_pairing (a w w' b : List Char) : Pairing id (BehindGap a w w' b) where
  lower := congrArg Char.toLower
  text := by
    rintro k k' ⟨q, r, -, rfl, rfl⟩
    rfl
  advance := by
    rintro p p' c d cs ds ⟨q, r, hb, hk, hk'⟩
    obtain ⟨rfl, rfl⟩ := Cursor.mk.inj hk
    obtain ⟨rfl, hrest⟩ := Cursor.mk.inj hk'
    obtain ⟨rfl, rfl⟩ := List.cons.inj hrest
    refine ⟨q ++ [d], ds, by rw [hb, List.append_assoc]; rfl, ?_, ?_⟩ <;>
      simp only [behind, ← List.append_assoc, Position.after_append, Position.after_cons, Position.after_nil]

theorem Exchange.spaced (h : Exchange strategy a w w' b) : Spaced (w' ++ b) := by
  obtain ⟨c, hhead, hblank⟩ := h.blank
  obtain ⟨cs, rfl⟩ := List.head?_eq_some_iff.mp hhead
  rintro d ⟨⟩
  exact hblank

theorem next_of_skip {here there : Cursor} (h : skipTrivia .nothing here.position here.rest = .ok there) (mode : Mode) :
    here.next mode = there.next mode := by
  obtain ⟨-, -, -, -, hbare, -⟩ := skips_of_ok h
  unfold Cursor.next
  rw [h, skipTrivia_bare hbare]

/-- At both ends of the gap the same tokens follow. -/
theorem Exchange.level (h : Exchange strategy a w w' b) :
    Level (BehindGap a w w' b) (behind a (w ++ b)) (behind a (w' ++ b)) := by
  have hgap' : skipTrivia .nothing (Position.start.after a) (w' ++ b) =
      skipTrivia .nothing (Position.start.after (a ++ w')) b := by
    rw [skipTrivia_gap h.skips, Position.after_append]
  refine ⟨behind (a ++ w) b, behind (a ++ w') b, ⟨[], b, rfl, ?_, ?_⟩, fun mode => next_of_skip h.gap mode, fun mode => ?_⟩
  · rw [List.append_nil]
  · rw [List.append_nil]
  · simp only [Cursor.next, behind, hgap']

theorem spliced_behind (a v w : List Char) : Spliced v w (behind a v) (behind a w) :=
  ⟨[], rfl, rfl, fun h => by cases h⟩

/-- What completes a target at one of two such places completes it at the other. -/
theorem Level.finishes {f : Char → Char} {K : Cursor → Cursor → Prop} {c c' d : Cursor} {named : Bool}
    (hK : Pairing f K) (h : Level K c c') (hfinishes : Finishes named c d) : ∃ d', Finishes named c' d' ∧ K d d' := by
  cases named with
  | false => exact h.targets hK hfinishes
  | true =>
      rcases hfinishes with hassign | ⟨e, hdot, hrest⟩
      · obtain ⟨d', hassign', hd⟩ := h.takes hK hassign
        exact ⟨d', .inl hassign', hd⟩
      · obtain ⟨e', hdot', he⟩ := h.takes hK hdot
        obtain ⟨d', hrest', hd⟩ := (Level.of he).targets hK hrest
        exact ⟨d', .inr ⟨e', hdot', hrest'⟩, hd⟩

theorem Exchange.aims (h : Exchange strategy a w w' b) (hcursor : s.cursor = behind a (w ++ b)) :
    Aims (w ++ b) (w' ++ b) s (behind a (w' ++ b)) := by
  have hfinishes : ∀ named d', Finishes named (behind a (w' ++ b)) d' → ∃ d, Finishes named s.cursor d := by
    intro named d' hfinishes
    obtain ⟨d, hfinishes', -⟩ := h.level.flip.finishes (behindGap_pairing a w w' b).flip hfinishes
    exact ⟨d, hcursor ▸ hfinishes'⟩
  exact ⟨hcursor ▸ spliced_behind _ _ _, fun _ ⟨d', htargets⟩ => hfinishes false d' htargets,
    fun _ ⟨d', hgoes⟩ => hfinishes true d' hgoes⟩

/-! ## Openers -/

/-- A token in `a` that both runs remember. -/
def InFront (a : List Char) (t t' : Token) : Prop :=
  ∃ p x r, a = p ++ (x ++ r) ∧ x ≠ [] ∧ t.start = Position.start.after p ∧ t'.start = t.start ∧
    t.shown = String.ofList x ∧ t'.shown = t.shown

/-- Openers that both runs remember: in front of the gap, or behind it. -/
def OpenersAlike (a w w' b : List Char) (t t' : Token) : Prop :=
  InFront a t t' ∨ TokensPair id (BehindGap a w w' b) t t'

theorem inFront_of_shows {v : List Char} {t t' : Token} (hsame : SameToken v w t t') (hshows : Shows (a ++ v) t)
    (hshows' : Shows (a ++ w) t') (htext : t.text ≠ []) : InFront a t t' := by
  have hshown := hshows.shown
  have hshown' := hshows'.shown
  obtain ⟨p, hpieces, hstart, -⟩ := hshows
  obtain ⟨u, hrest, -⟩ := hsame.finish
  change t.rest = u ++ v at hrest
  rw [shownPiece, if_neg htext] at hshown
  rw [shownPiece, ← hsame.text, if_neg htext] at hshown'
  have hall : a ++ v = p ++ (t.text ++ u) ++ v := by
    rw [hpieces, hrest]
    simp only [List.append_assoc]
  exact ⟨p, t.text, u, List.append_cancel_right hall, htext, hstart, hsame.start.symm, hshown,
    hshown'.trans hshown.symm⟩

/-- Only a token that stands at the place at hand may be remembered as an opener and have no text. -/
theorem opener_stands {text : List Char} (h : ReflTransGen (Moves limit) (start text) s)
    (htext : s.opener.text = []) : s.plan.guarded = true ∨ s.cursor.next .expression = .ok s.opener := by
  rcases (runs_onward .refl (start_onward text) h).opener with hguarded | ⟨here, -, hnext⟩
  · exact .inl hguarded
  · cases runs_opening h with
    | none hguarded => exact .inl hguarded
    | here _ hstands => exact .inr hstands
    | behind _ hname _ => exact absurd htext (text_ne_nil hnext hname rfl)
    | opened _ hopens => exact absurd htext (hopens.text_ne_nil hnext)

/-- What is remembered at the gap is remembered alike. -/
theorem Exchange.openers (h : Exchange strategy a w w' b)
    (hs : ReflTransGen (Moves limit) (start (a ++ (w ++ b))) s)
    (hs' : ReflTransGen (Moves limit) (start (a ++ (w' ++ b))) s')
    (htwins : Twins (Spliced (w ++ b) (w' ++ b)) (SameToken (w ++ b) (w' ++ b)) s s')
    (hcursor : s.cursor = behind a (w ++ b)) (hcursor' : s'.cursor = behind a (w' ++ b)) :
    s.plan.guarded = true ∨ OpenersAlike a w w' b s.opener s'.opener := by
  rcases htwins.opener with hguarded | hsame
  · exact .inl hguarded
  -- An opener without a text is the end of the text: it stands behind the gap, in both texts.
  by_cases htext : s.opener.text = []
  · rcases opener_stands hs htext with hguarded | hnext
    · exact .inl hguarded
    rcases opener_stands hs' (hsame.text ▸ htext) with hguarded | hnext'
    · exact .inl (htwins.plan ▸ hguarded)
    rw [hcursor] at hnext
    rw [hcursor'] at hnext'
    obtain ⟨t', hstands, hpair⟩ := h.level.token (behindGap_pairing a w w' b) hnext
    obtain rfl : t' = s'.opener := Except.ok.inj (hstands.symm.trans hnext')
    exact .inr (.inr hpair)
  · rcases runs_remember hs with hguarded | hshows
    · exact .inl hguarded
    rcases runs_remember hs' with hguarded | hshows'
    · exact .inl (htwins.plan ▸ hguarded)
    exact .inr (.inl (inFront_of_shows hsame hshows hshows' htext))

/-! ## Across the gap -/

/-- Two runs that stand behind the gap alike. -/
def Meets (limit : Nat) (a w w' b : List Char) : Prop :=
  ∃ s s', ReflTransGen (Moves limit) (start (a ++ (w ++ b))) s ∧
    ReflTransGen (Moves limit) (start (a ++ (w' ++ b))) s' ∧
    Twins (Level (BehindGap a w w' b)) (OpenersAlike a w w' b) s s'

theorem Exchange.meets_at (h : Exchange strategy a w w' b)
    (hruns : ReflTransGen (Moves limit) (start (a ++ (w ++ b))) s) (hcursor : s.cursor = behind a (w ++ b)) :
    Meets limit a w w' b := by
  -- The first state at the gap: none in front of it has seen what follows.
  obtain ⟨y, hpath, hy, -⟩ := exists_first (P := (· = behind a (w ++ b))) hruns hcursor
  have hyruns : ReflTransGen (Moves limit) (start (a ++ (w ++ b))) y := ReflTransGen.mono (fun _ _ => And.left) _ _ hpath
  obtain ⟨y', hruns', htwins⟩ := runs_to_seam h.spaced hpath (h.aims hy) (.inl hy)
  have hy' : y'.cursor = behind a (w' ++ b) := (hy ▸ htwins.cursor).unique (spliced_behind _ _ _)
  refine ⟨y, y', hyruns, hruns', ?_, htwins.expected, htwins.depth, htwins.plan, htwins.stack,
    h.openers hyruns hruns' htwins hy hy'⟩
  rw [hy, hy']
  exact h.level

/-- A scan over both texts that ends at the seam. -/
theorem Scans.shares {v : List Char} {c d d' : Cursor} {named : Bool} (hw : Spaced w) (h : Scans c named d)
    (hd : Spliced v w d d') :
    ∃ c', Spliced v w c c' ∧ Scans c' named d' ∧
      Shares v w .expression [.name, .kind .quotedIdentifier] c c' := by
  induction h generalizing d' with
  | first hname =>
      obtain ⟨c', hc, hname', hshares⟩ := takes_shares hw hname rfl hd
      exact ⟨c', hc, .first hname', hshares⟩
  | dot _ hdot ih =>
      obtain ⟨e', he, hdot', -⟩ := takes_shares hw hdot rfl hd
      obtain ⟨c', hc, hscans, hshares⟩ := ih he
      exact ⟨c', hc, .dot hscans hdot', hshares⟩
  | part _ hname ih =>
      obtain ⟨e', he, hname', -⟩ := takes_shares hw hname rfl hd
      obtain ⟨c', hc, hscans, hshares⟩ := ih he
      exact ⟨c', hc, .part hscans hname', hshares⟩

theorem Exchange.meets_behind (h : Exchange strategy a w w' b) {next : Plan} {named : Bool} {d : Cursor}
    (hruns : ReflTransGen (Moves limit) (start (a ++ (w ++ b))) s) (hplan : s.plan = .target next)
    (hscans : Scans s.cursor named (behind a (w ++ b))) (htarget : Targets s.cursor d) : Meets limit a w w' b := by
  obtain ⟨c', hc, hscans', hshares⟩ := hscans.shares h.spaced (spliced_behind _ _ _)
  -- The whole path lies in front of the gap, since the scan does not move the state.
  have hpath : ReflTransGen (MovesUpTo limit fun _ => False) (start (a ++ (w ++ b))) s :=
    ReflTransGen.mono (fun _ _ hmoves => ⟨hmoves, id⟩) _ _ hruns
  obtain ⟨s', hruns', htwins⟩ := runs_to_seam h.spaced hpath (aims_at_target htarget hshares hc)
    (.inr (foreseen_at_target hplan hshares))
  obtain rfl := htwins.cursor.unique hc
  obtain ⟨d', hfinishes, hd⟩ := h.level.finishes (behindGap_pairing a w w' b) (hscans.targets_iff.mp htarget)
  have htarget' := hscans'.targets_iff.mpr hfinishes
  obtain rfl := next_of_target hruns hplan
  exact ⟨_, _, hruns.tail (.target hplan (target?_eq_some_iff.mpr htarget)),
    hruns'.tail (.target (htwins.plan ▸ hplan) (target?_eq_some_iff.mpr htarget')),
    .of hd, rfl, htwins.depth, rfl, htwins.stack, .inl rfl⟩

theorem Exchange.meets (h : Exchange strategy a w w' b) : Meets strategy.limit a w w' b := by
  cases h.consumes.passes with
  | state hruns hcursor => exact h.meets_at hruns hcursor
  | target hruns hplan hscans htarget => exact h.meets_behind hruns hplan hscans htarget

/-! ## Verdicts -/

/-- Faults that correspond: at the same opener in `a`, or behind the gap with the same message, at the same
character of `b` or at its end. -/
inductive Correspond (a w w' b : List Char) (e e' : SyntaxError) : Prop where
  | opener {p x r : List Char} {n : Nat} : a = p ++ (x ++ r) → x ≠ [] →
      e = ⟨Position.start.after p, .tooDeep n (String.ofList x)⟩ → e' = e → Correspond a w w' b e e'
  | behind {q r : List Char} : b = q ++ r → e.position = Position.start.after (a ++ w ++ q) →
      e'.position = Position.start.after (a ++ w' ++ q) → e.message = e'.message → Correspond a w w' b e e'

theorem correspond_of_pair {e e' : SyntaxError} (h : FaultsPair id (BehindGap a w w' b) e e') :
    Correspond a w w' b e e' := by
  obtain ⟨k, k', ⟨q, r, hb, rfl, rfl⟩, hplace, hplace'⟩ := h.place
  exact .behind hb hplace hplace' h.message

theorem correspond_of_alike {e e' : SyntaxError}
    (h : FaultsAlike id (BehindGap a w w' b) (OpenersAlike a w w' b) limit e e') : Correspond a w w' b e e' := by
  cases h with
  | here hpair => exact correspond_of_pair hpair
  | opener halike =>
      rcases halike with ⟨p, x, r, ha, hx, hstart, hstart', hshown, hshown'⟩ | hpair
      · exact .opener ha hx (by rw [hstart, hshown]) (by rw [hstart', hshown'])
      · have halike : FaultsAlike id (BehindGap a w w' b) (TokensPair id (BehindGap a w w' b)) limit _ _ := .opener hpair
        exact correspond_of_pair halike.pair

/-- **Comments and blanks are neutral.** If a text has been read up to some place, then the trivia that stand there
can be exchanged for others that begin with a blank and leave no comment open: both texts are statements, or both
have corresponding faults with the same message. -/
theorem check_gap {a w w' b : String} (h : Exchange {} a.toList w.toList w'.toList b.toList) :
    SameVerdict (Correspond a.toList w.toList w'.toList b.toList) (check (a ++ w ++ b)) (check (a ++ w' ++ b)) := by
  obtain ⟨s, s', hruns, hruns', htwins⟩ := h.meets
  have hverdicts : SameVerdict _ (checkBy {} _) (checkBy {} _) :=
    htwins.verdicts (behindGap_pairing _ _ _ _) (fun _ _ => .inr) hruns hruns'
  unfold check
  simp only [String.toList_append, List.append_assoc]
  exact hverdicts.mono fun _ _ => correspond_of_alike

theorem check_gap_in_target :
    Exchange {} "ROW x".toList " ".toList " //\n/**/".toList "= (1".toList ∧
      SameVerdict (Correspond "ROW x".toList " ".toList " //\n/**/".toList "= (1".toList)
        (check ("ROW x" ++ " " ++ "= (1")) (check ("ROW x" ++ " //\n/**/" ++ "= (1")) := by
  -- Five steps lead behind `ROW`, to where a target is looked for; there `x` is scanned.
  have hreaches : ∃ s, Reaches {} (start "ROW x = (1".toList) s ∧ s.plan = .target (.jump .boolean) ∧
      s.cursor = ⟨⟨1, 3⟩, " x = (1".toList⟩ :=
    ⟨_, .tail (.tail (.tail (.tail (.tail .refl rfl) rfl) rfl) rfl) rfl, rfl, rfl⟩
  obtain ⟨s, hs, hplan, hcursor⟩ := hreaches
  have h : Exchange {} "ROW x".toList " ".toList " //\n/**/".toList "= (1".toList :=
    { consumes := .scan hs hplan (.first (hcursor ▸ ⟨_, rfl, rfl, rfl⟩))
      gap := rfl
      blank := ⟨' ', rfl, rfl⟩
      skips := .blank rfl (.openLine (.endLine (.openBlock (.endBlock .done)))) }
  exact ⟨h, check_gap h⟩

end Esql.Syntax
