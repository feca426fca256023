import Esql.Proofs.Recognizer.Viable
import Esql.Proofs.Tokens.Pairing

/-!
# `Proofs.Recognizer.Lockstep` — two runs that go in step

Two states are twins if they are about to do the same and remember the same, at places that correspond
(`Twins`). Where the plan at hand does the same at both places (`Plan.Agrees`), a move of the one state is a
move of the other, and they are twins again (`Moves.twins`). So two texts that are cut alike get the same
verdict: the runs on them go in step from twins to the end (`Twins.verdicts`).

## Contents
- A state goes on in one way, or ends in one way; `checkBy_eq_of_stops`.
- `Twins`, `Plan.Agrees` and `Moves.twins`.
- `Level`: places from which the text is cut as from paired places.
- `Twins.verdicts`.
-/

namespace Esql.Syntax

open State
open Esql.Text (Position)
open Relation (ReflTransGen)

variable {limit : Nat} {mode : Mode} {wanted : List Terminal} {s s' z z' : State} {a a' b d : Cursor}
  {v v' : Except SyntaxError Unit}

/-! ## Runs are determined -/

theorem Moves.unique (h : Moves limit s z) (h' : Moves limit s z') : z = z' := by
  cases h <;> cases h' <;> simp_all

theorem Stops.unique (h : Stops limit s v) (h' : Stops limit s v') : v = v' := by
  cases h <;> cases h' <;> simp_all [Plan.mode?]

/-- A state that ends a run does not go on. -/
theorem Stops.ends (h : Stops limit s v) : ¬ Moves limit s z := by
  intro hmoves
  cases h <;> cases hmoves <;> simp_all [Plan.mode?]
  omega

/-- Of two states of a run, one comes behind the other. -/
theorem runs_total (h : ReflTransGen (Moves limit) s z) (h' : ReflTransGen (Moves limit) s z') :
    ReflTransGen (Moves limit) z z' ∨ ReflTransGen (Moves limit) z' z :=
  ReflTransGen.total_of_right_unique (fun _ _ _ => Moves.unique) h h'

/-- Every state of a run comes before the one that ends it. -/
theorem runs_to_end (h : ReflTransGen (Moves limit) s z) (hstops : Stops limit z v)
    (h' : ReflTransGen (Moves limit) s z') : ReflTransGen (Moves limit) z' z := by
  rcases runs_total h' h with hruns | hruns
  · exact hruns
  · rcases hruns.cases_head with rfl | ⟨_, hmoves, -⟩
    · exact .refl
    · exact absurd hmoves hstops.ends

/-- The verdict on a text is the one with which the run on it ends. -/
theorem checkBy_eq_of_stops {strategy : Strategy} {text : List Char}
    (h : ReflTransGen (Moves strategy.limit) (start text) s) (hstops : Stops strategy.limit s v) :
    checkBy strategy text = v := by
  obtain ⟨s', hruns, hends⟩ := checkBy_stops strategy text
  rcases (runs_to_end h hstops hruns).cases_head with rfl | ⟨_, hmoves, -⟩
  · exact hends.unique hstops
  · exact absurd hmoves hends.ends

/-! ## Twins -/

/-- Two states that are about to do the same, at places that `R` relates. `O` relates the openers that they
remember, if these may be blamed. -/
structure Twins (R : Cursor → Cursor → Prop) (O : Token → Token → Prop) (s s' : State) : Prop where
  cursor : R s.cursor s'.cursor
  expected : s.expected = s'.expected
  depth : s.depth = s'.depth
  plan : s.plan = s'.plan
  stack : s.stack = s'.stack
  opener : s.plan.guarded = true ∨ O s.opener s'.opener

theorem start_twins {text text' : List Char} {R : Cursor → Cursor → Prop} {O : Token → Token → Prop}
    (h : R (Cursor.start text) (Cursor.start text')) : Twins R O (start text) (start text') :=
  ⟨h, rfl, rfl, rfl, rfl, .inl (Rule.guarded .statement)⟩

/-- Tokens that the grammar takes alike, and that end at places which `R` relates if one of these is wanted. -/
structure TakenAlike (R : Cursor → Cursor → Prop) (wanted : List Terminal) (t t' : Token) : Prop where
  isAmong : t.isAmong wanted = t'.isAmong wanted
  finish : t.isAmong wanted = true → R t.finish t'.finish

/-- The plan does the same at two places: what is true of the first is true of the second. -/
def Plan.Agrees (R : Cursor → Cursor → Prop) (O : Token → Token → Prop) (a a' : Cursor) : Plan → Prop
  | look mode wanted _ _ =>
    ∀ t, a.next mode = .ok t → ∃ t', a'.next mode = .ok t' ∧ t.isAmong wanted = t'.isAmong wanted
  | take mode wanted _ _ | extend mode wanted _ _ =>
    ∀ t, a.next mode = .ok t → ∃ t', a'.next mode = .ok t' ∧ TakenAlike R wanted t t'
  | opener _ => ∀ t, a.next .expression = .ok t → ∃ t', a'.next .expression = .ok t' ∧ O t t'
  | target _ =>
    (∀ b, Targets a b → ∃ b', Targets a' b' ∧ R b b') ∧ ((∃ b', Targets a' b') → ∃ b, Targets a b)
  | done | reject .. | call .. | jump _ | enter .. => True

variable {R : Cursor → Cursor → Prop} {O : Token → Token → Prop}

/-- **Twins go on alike.** -/
theorem Moves.twins (h : Moves limit s z) (hopen : s.Open) (htwins : Twins R O s s')
    (hagrees : s.plan.Agrees R O s.cursor s'.cursor) : ∃ z', Moves limit s' z' ∧ Twins R O z z' := by
  have hstack := hopen.stack
  obtain ⟨cursor, ahead, expected, depth, opener, plan, stack⟩ := s
  obtain ⟨cursor', ahead', expected', depth', opener', plan', stack'⟩ := s'
  obtain ⟨hcursor, rfl, rfl, rfl, rfl, hopener⟩ := htwins
  cases h with
  | resume hplan hframe =>
      cases hplan
      cases hframe
      exact ⟨_, .resume rfl rfl, hcursor, rfl, rfl, rfl, rfl, .inl hstack.2.1⟩
  | leave hplan hframe =>
      cases hplan
      cases hframe
      exact ⟨_, .leave rfl rfl, hcursor, rfl, rfl, rfl, rfl, .inl rfl⟩
  | seen hplan hnext hamong =>
      cases hplan
      obtain ⟨t', hnext', hsame⟩ := hagrees _ hnext
      simp only [Plan.guarded, Bool.and_eq_true] at hopener
      exact ⟨_, .seen rfl hnext' (hsame ▸ hamong), hcursor, rfl, rfl, rfl, rfl, hopener.imp_left And.left⟩
  | unseen hplan hnext hamong =>
      cases hplan
      obtain ⟨t', hnext', hsame⟩ := hagrees _ hnext
      simp only [Plan.guarded, Bool.and_eq_true] at hopener
      exact ⟨_, .unseen rfl hnext' (hsame ▸ hamong), hcursor, rfl, rfl, rfl, rfl, hopener.imp_left And.right⟩
  | take hplan hnext hamong =>
      cases hplan
      obtain ⟨t', hnext', hsame⟩ := hagrees _ hnext
      simp only [Plan.guarded, Bool.and_eq_true] at hopener
      exact ⟨_, .take rfl hnext' (hsame.isAmong ▸ hamong), hsame.finish hamong, rfl, rfl, rfl, rfl,
        hopener.imp_left And.left⟩
  | miss hplan hnext hamong =>
      cases hplan
      obtain ⟨t', hnext', hsame⟩ := hagrees _ hnext
      simp only [Plan.guarded, Bool.and_eq_true] at hopener
      exact ⟨_, .miss rfl hnext' (hsame.isAmong ▸ hamong), hcursor, rfl, rfl, rfl, rfl, hopener.imp_left And.right⟩
  | extend hplan hnext hamong =>
      cases hplan
      obtain ⟨t', hnext', hsame⟩ := hagrees _ hnext
      simp only [Plan.guarded, Bool.and_eq_true] at hopener
      exact ⟨_, .extend rfl hnext' (hsame.isAmong ▸ hamong), hsame.finish hamong, rfl, rfl, rfl, rfl,
        hopener.imp_left And.left⟩
  | pass hplan hnext hamong =>
      cases hplan
      obtain ⟨t', hnext', hsame⟩ := hagrees _ hnext
      simp only [Plan.guarded, Bool.and_eq_true] at hopener
      exact ⟨_, .pass rfl hnext' (hsame.isAmong ▸ hamong), hcursor, rfl, rfl, rfl, rfl, hopener.imp_left And.right⟩
  | call hplan =>
      cases hplan
      exact ⟨_, .call rfl, hcursor, rfl, rfl, rfl, rfl, .inl (Rule.guarded _)⟩
  | jump hplan =>
      cases hplan
      exact ⟨_, .jump rfl, hcursor, rfl, rfl, rfl, rfl, .inl (Rule.guarded _)⟩
  | opener hplan hnext =>
      cases hplan
      obtain ⟨t', hnext', hblamed⟩ := hagrees _ hnext
      exact ⟨_, .opener rfl hnext', hcursor, rfl, rfl, rfl, rfl, .inr hblamed⟩
  | enter hplan hdepth =>
      cases hplan
      exact ⟨_, .enter rfl hdepth, hcursor, rfl, rfl, rfl, rfl, .inl (Rule.guarded _)⟩
  | target hplan htarget =>
      cases hplan
      obtain ⟨b', htargets, hfinish⟩ := hagrees.1 _ (target?_eq_some_iff.mp htarget)
      exact ⟨_, .target rfl (target?_eq_some_iff.mpr htargets), hfinish, rfl, rfl, rfl, rfl, hopener⟩
  | noTarget hplan htarget =>
      cases hplan
      have hnone : Cursor.target? cursor'.rest cursor' = none := by
        refine Option.eq_none_iff_forall_ne_some.mpr fun b' hb' => ?_
        obtain ⟨b, htargets⟩ := hagrees.2 ⟨b', target?_eq_some_iff.mp hb'⟩
        cases htarget.symm.trans (target?_eq_some_iff.mpr htargets)
      exact ⟨_, .noTarget rfl hnone, hcursor, rfl, rfl, rfl, rfl, hopener⟩

/-! ## Texts that are cut alike -/

/-- Places from which the text is cut as from places that are paired. -/
def Level (K : Cursor → Cursor → Prop) (a a' : Cursor) : Prop :=
  ∃ k k', K k k' ∧ (∀ mode, a.next mode = k.next mode) ∧ ∀ mode, a'.next mode = k'.next mode

variable {f : Char → Char} {K : Cursor → Cursor → Prop} {t t' : Token}

theorem Level.of (h : K a a') : Level K a a' := ⟨a, a', h, fun _ => rfl, fun _ => rfl⟩

theorem Level.flip (h : Level K a a') : Level (fun b b' => K b' b) a' a := by
  obtain ⟨k, k', hk, ha, ha'⟩ := h
  exact ⟨k', k, hk, ha', ha⟩

theorem TokensPair.isAmong (h : TokensPair f K t t') (wanted : List Terminal) :
    t.isAmong wanted = t'.isAmong wanted := by
  simp only [Token.isAmong, h.symbol]

theorem TokensPair.shown (h : TokensPair f K t t') : t.shown.toList.map f = t'.shown.toList.map f := by
  have hkind : t.kind = t'.kind := congrArg Symbol.kind h.symbol
  unfold Token.shown
  rw [hkind]
  split
  · rfl
  · simpa using h.text

/-- What stands at one of two such places stands at the other. -/
theorem Level.next (hK : Pairing f K) (h : Level K a a') (mode : Mode) :
    Both (TokensPair f K) (FaultsPair f K) (a.next mode) (a'.next mode) := by
  obtain ⟨k, k', hk, ha, ha'⟩ := h
  rw [ha mode, ha' mode]
  exact hK.next mode hk

theorem Level.token (hK : Pairing f K) (h : Level K a a') (hnext : a.next mode = .ok t) :
    ∃ t', a'.next mode = .ok t' ∧ TokensPair f K t t' := by
  have hboth := h.next hK mode
  rw [hnext] at hboth
  generalize a'.next mode = found at hboth ⊢
  cases hboth with
  | ok hpair => exact ⟨_, rfl, hpair⟩

theorem Level.fault (hK : Pairing f K) (h : Level K a a') {e : SyntaxError} (hnext : a.next mode = .error e) :
    ∃ e', a'.next mode = .error e' ∧ FaultsPair f K e e' := by
  have hboth := h.next hK mode
  rw [hnext] at hboth
  generalize a'.next mode = found at hboth ⊢
  cases hboth with
  | error hpair => exact ⟨_, rfl, hpair⟩

theorem Level.takes (hK : Pairing f K) (h : Level K a a') (htakes : Takes mode wanted a b) :
    ∃ b', Takes mode wanted a' b' ∧ K b b' := by
  obtain ⟨t, hnext, hamong, rfl⟩ := htakes
  obtain ⟨t', hnext', hpair⟩ := h.token hK hnext
  exact ⟨_, ⟨t', hnext', hpair.isAmong wanted ▸ hamong, rfl⟩, hpair.finish⟩

theorem Level.targets (hK : Pairing f K) (h : Level K a a') (htargets : Targets a b) :
    ∃ b', Targets a' b' ∧ K b b' := by
  induction htargets generalizing a' with
  | last hname hassign =>
      obtain ⟨c, hname', hc⟩ := h.takes hK hname
      obtain ⟨d, hassign', hd⟩ := (Level.of hc).takes hK hassign
      exact ⟨d, .last hname' hassign', hd⟩
  | more hname hdot _ ih =>
      obtain ⟨c, hname', hc⟩ := h.takes hK hname
      obtain ⟨d, hdot', hd⟩ := (Level.of hc).takes hK hdot
      obtain ⟨e, hrest, he⟩ := ih (.of hd)
      exact ⟨e, .more hname' hdot' hrest, he⟩

/-- Every plan does the same at such places. -/
theorem Level.agrees (hK : Pairing f K) (hO : ∀ t t', TokensPair f K t t' → O t t') (h : Level K a a')
    (plan : Plan) : plan.Agrees (Level K) O a a' := by
  cases plan with
  | done | reject | call | jump | enter => trivial
  | look mode wanted yes no =>
      intro t hnext
      obtain ⟨t', hnext', hpair⟩ := h.token hK hnext
      exact ⟨t', hnext', hpair.isAmong wanted⟩
  | take mode wanted yes no | extend mode wanted yes no =>
      intro t hnext
      obtain ⟨t', hnext', hpair⟩ := h.token hK hnext
      exact ⟨t', hnext', hpair.isAmong wanted, fun _ => .of hpair.finish⟩
  | opener next =>
      intro t hnext
      obtain ⟨t', hnext', hpair⟩ := h.token hK hnext
      exact ⟨t', hnext', hO t t' hpair⟩
  | target next =>
      refine ⟨fun b htargets => ?_, fun ⟨b', htargets⟩ => ?_⟩
      · obtain ⟨b', htargets', hb⟩ := h.targets hK htargets
        exact ⟨b', htargets', .of hb⟩
      · obtain ⟨b, htargets', -⟩ := h.flip.targets hK.flip htargets
        exact ⟨b, htargets'⟩

/-! ## Verdicts -/

/-- Faults of two runs in step: at places that are paired, or at the openers that are remembered. -/
inductive FaultsAlike (f : Char → Char) (K : Cursor → Cursor → Prop) (O : Token → Token → Prop) (limit : Nat) :
    SyntaxError → SyntaxError → Prop where
  | here {e e' : SyntaxError} : FaultsPair f K e e' → FaultsAlike f K O limit e e'
  | opener {o o' : Token} : O o o' →
      FaultsAlike f K O limit ⟨o.start, .tooDeep limit o.shown⟩ ⟨o'.start, .tooDeep limit o'.shown⟩

/-- Where the openers are paired, the faults are. -/
theorem FaultsAlike.pair {e e' : SyntaxError} (h : FaultsAlike f K (TokensPair f K) limit e e') :
    FaultsPair f K e e' := by
  cases h with
  | here hpair => exact hpair
  | opener hpair =>
      refine ⟨⟨_, _, hpair.start, rfl, rfl⟩, ?_⟩
      rw [Cause.spelled, Cause.spelled, hpair.shown]

/-- Two verdicts: both that the text is a statement, or faults that `E` relates. -/
abbrev SameVerdict (E : SyntaxError → SyntaxError → Prop) : Except SyntaxError Unit → Except SyntaxError Unit → Prop :=
  Both (fun _ _ => True) E

/-- Twins end alike. -/
theorem Stops.twins (hK : Pairing f K) (h : Stops limit s v) (htwins : Twins (Level K) O s s') :
    ∃ v', Stops limit s' v' ∧ SameVerdict (FaultsAlike f K O limit) v v' := by
  obtain ⟨hcursor, hexpected, hdepth, hplan, hstack, hopener⟩ := htwins
  cases h with
  | accept hdone hframe => exact ⟨_, .accept (hplan ▸ hdone) (hstack ▸ hframe), .ok trivial⟩
  | unrecognised hmode hnext =>
      obtain ⟨e', hnext', hpair⟩ := hcursor.fault hK hnext
      exact ⟨_, .unrecognised (hplan ▸ hmode) hnext', .error (.here hpair)⟩
  | mismatch hreject hnext =>
      obtain ⟨t', hnext', hpair⟩ := hcursor.token hK hnext
      refine ⟨_, .mismatch (hplan ▸ hreject) hnext', .error (.here ⟨⟨_, _, hpair.start, rfl, rfl⟩, ?_⟩)⟩
      rw [Cause.spelled, Cause.spelled, hpair.shown, hexpected]
  | tooDeep henter hlimit =>
      rw [henter] at hopener
      exact ⟨_, .tooDeep (hplan ▸ henter) (hdepth ▸ hlimit), .error (.opener (hopener.resolve_left Bool.false_ne_true))⟩

/-- **Runs on texts that are cut alike go in step.** -/
theorem Twins.runs (hK : Pairing f K) (hO : ∀ t t', TokensPair f K t t' → O t t') {text : List Char}
    (hs : ReflTransGen (Moves limit) (start text) s) (htwins : Twins (Level K) O s s')
    (h : ReflTransGen (Moves limit) s z) :
    ∃ z', ReflTransGen (Moves limit) s' z' ∧ Twins (Level K) O z z' := by
  induction h with
  | refl => exact ⟨s', .refl, htwins⟩
  | tail hruns hmoves ih =>
      obtain ⟨y', hruns', hy⟩ := ih
      obtain ⟨z', hmoves', hz⟩ := hmoves.twins (runs_open (hs.trans hruns)) hy (hy.cursor.agrees hK hO _)
      exact ⟨z', hruns'.tail hmoves', hz⟩

/-- **Twins have the same verdict.** -/
theorem Twins.verdicts {strategy : Strategy} (hK : Pairing f K) (hO : ∀ t t', TokensPair f K t t' → O t t')
    {text text' : List Char} (hs : ReflTransGen (Moves strategy.limit) (start text) s)
    (hs' : ReflTransGen (Moves strategy.limit) (start text') s') (htwins : Twins (Level K) O s s') :
    SameVerdict (FaultsAlike f K O strategy.limit) (checkBy strategy text) (checkBy strategy text') := by
  obtain ⟨z, hruns, hstops⟩ := checkBy_stops strategy text
  obtain ⟨z', hruns', hz⟩ := htwins.runs hK hO hs (runs_to_end hruns hstops hs)
  obtain ⟨v', hstops', hsame⟩ := hstops.twins hK hz
  rwa [checkBy_eq_of_stops (hs'.trans hruns') hstops']

end Esql.Syntax
