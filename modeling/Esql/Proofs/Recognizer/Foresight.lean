import Esql.Proofs.Recognizer.Lockstep

/-!
# `Proofs.Recognizer.Foresight` — a run up to a seam

A text is cut at a seam and goes on in another way behind it. If the run on the one text comes to the seam, the
run on the other does the same up to there (`runs_to_seam`).

The tokens that are taken before the seam stand in both texts. But the recognizer looks at a token in more ways
than one before it takes it: in modes in which the token is another one and may extend beyond the seam, and
along a whole name where an assignment target may stand. None of that decides otherwise in the other text. The
next token that is taken decides what was looked for before, and it is the same in both texts; so it is carried
back along the run, from where it is taken to where it is first looked at (`Foreseen`). Whether a target stands
at a place is carried back in the same way, token by token (`Aims`).

## Contents
- `Config.Belongs`: the plan at hand is part of a rule; `Plan.staysPlain`: where the mode does not change.
- `Aims` and `Foreseen`, and how a move carries them back.
- `runs_to_seam`.
-/

namespace Esql.Syntax

open State Look
open Esql.Text (Position)
open Relation (ReflTransGen)

variable {limit : Nat} {mode : Mode} {wanted : List Terminal} {s s' y z : State} {a a' b b' c d : Cursor}
  {v w text : List Char} {t t' : Token}

/-! ## The rule at hand -/

/-- The plan is part of a rule whose parts have the property `q`, and what may be asked behind the plan may follow
the rule. -/
def Plan.BelongsTo (q : List Look → Plan → Bool) (plan : Plan) (rest : List Look) : Prop :=
  ∃ rule : Rule, plan.all (q rule.follow) = true ∧ rest ⊆ rule.follow

def stackBelongs (q : List Look → Plan → Bool) : List Frame → Prop
  | [] => True
  | .resume plan :: stack => plan.BelongsTo q (stackAsks true stack) ∧ stackBelongs q stack
  | .leave :: stack => stackBelongs q stack

/-- All plans of a configuration are parts of rules. -/
structure Config.Belongs (q : List Look → Plan → Bool) (c : Config) : Prop where
  plan : c.plan.BelongsTo q (stackAsks true c.stack)
  stack : stackBelongs q c.stack

theorem Leads.belongs {q : List Look → Plan → Bool} (hq : ∀ rule : Rule, rule.plan.all (q rule.follow) = true)
    {c c' : Config} (h : Leads limit c a c' b) (hfits : c.Fits) (hc : c.Belongs q) : c'.Belongs q := by
  obtain ⟨⟨rule, hplan, hrest⟩, hstack⟩ := hc
  have hfit := hfits.plan
  cases h with
  | resume => exact ⟨hstack.1, hstack.2⟩
  | leave => exact ⟨⟨rule, hplan, hrest⟩, hstack⟩
  | seen | unseen | take | miss | extend | pass =>
      simp only [Plan.all, Bool.and_eq_true] at hplan
      exact ⟨⟨rule, by simp only [hplan], hrest⟩, hstack⟩
  | opener | target | noTarget =>
      simp only [Plan.all, Bool.and_eq_true] at hplan
      exact ⟨⟨rule, hplan.2, hrest⟩, hstack⟩
  | jump =>
      simp only [Plan.fits, Bool.and_eq_true] at hfit
      exact ⟨⟨_, hq _, subset_of_among hfit.1⟩, hstack⟩
  | call | enter =>
      simp only [Plan.all, Bool.and_eq_true] at hplan
      simp only [Plan.fits, Bool.and_eq_true] at hfit
      exact ⟨⟨_, hq _, subset_of_among hfit.1.2⟩, ⟨rule, hplan.2, hrest⟩, hstack⟩

theorem runs_belong {q : List Look → Plan → Bool} (hq : ∀ rule : Rule, rule.plan.all (q rule.follow) = true)
    (h : ReflTransGen (Moves limit) (start text) s) : s.config.Belongs q := by
  induction h with
  | refl => exact ⟨⟨.statement, hq .statement, List.Subset.refl _⟩, trivial⟩
  | tail hruns hmoves ih => exact hmoves.leads.belongs hq (runs_fit hruns) ih

/-! ## Where the mode stays -/

/-- Words behind which the next token is not read in the mode of expressions. -/
def switches : List Terminal :=
  [.word .FROM, .word .ENRICH, .word .DROP, .word .KEEP, .word .RENAME, .word .JOIN]

/-- A look in the mode of expressions, and not for a word that changes the mode. -/
def Look.isPlain (l : Look) : Bool := l.1 = .expression && !switches.contains l.2

/-- A part of a name may be one of these. -/
def mayName (wanted : List Terminal) : Bool :=
  wanted.any fun t => [.name, .kind .quotedIdentifier].any fun u => !t.excludes u

/-- Where a name may be taken, the mode stays that of expressions; behind a dot a name is wanted again. -/
def Plan.staysPlain (follow : List Look) : Plan → Bool
  | look _ _ yes _ => (yes.asksBefore true follow).all isPlain
  | take mode wanted yes _ | extend mode wanted yes _ =>
    (!((looksFor mode wanted).all isPlain && mayName wanted) ||
        (yes.asksBefore true follow).all (·.1 = .expression)) &&
      (!(mode = .expression && wanted.contains (.kind .dot)) || (yes.asksBefore true follow).all isPlain)
  | opener next => (next.asksBefore true follow).all (·.1 = .expression)
  | _ => true

theorem Rule.stays_plain (rule : Rule) : rule.plan.all (Plan.staysPlain rule.follow) = true := by
  cases rule <;> decide +kernel

/-- The same where less may follow. -/
theorem staysPlain_of_belongs {plan : Plan} {rest : List Look} (h : plan.BelongsTo Plan.staysPlain rest) :
    plan.staysPlain rest = true := by
  obtain ⟨rule, hall, hrest⟩ := h
  have hself := Plan.all_self hall
  have hmono : ∀ (next : Plan) (q : Look → Bool), (next.asksBefore true rule.follow).all q = true →
      (next.asksBefore true rest).all q = true := fun next q => all_mono (asksBefore_mono true hrest)
  cases plan with
  | look mode wanted yes no => exact hmono _ _ hself
  | opener next => exact hmono _ _ hself
  | take mode wanted yes no | extend mode wanted yes no =>
      simp only [Plan.staysPlain, Bool.and_eq_true, Bool.or_eq_true] at hself ⊢
      exact ⟨hself.1.imp_right (hmono _ _), hself.2.imp_right (hmono _ _)⟩
  | _ => rfl

/-! ## What is carried back -/

/-- What follows a part of a name in a target, up to the end of the target. -/
def GoesOnTo (a d : Cursor) : Prop :=
  Takes .expression [.kind .assign] a d ∨ ∃ c, Takes .expression [.kind .dot] a c ∧ Targets c d

theorem targets_iff_goesOnTo :
    Targets a d ↔ ∃ b, Takes .expression [.name, .kind .quotedIdentifier] a b ∧ GoesOnTo b d := by
  constructor
  · rintro (⟨hname, hassign⟩ | ⟨hname, hdot, hrest⟩)
    · exact ⟨_, hname, .inl hassign⟩
    · exact ⟨_, hname, .inr ⟨_, hdot, hrest⟩⟩
  · rintro ⟨b, hname, hassign | ⟨c, hdot, hrest⟩⟩
    · exact .last hname hassign
    · exact .more hname hdot hrest

/-- A state at a place before the seam, and the same place `a'` in the other text: where a target stands there in
the other text, one stands there in this. -/
structure Aims (v w : List Char) (s : State) (a' : Cursor) : Prop where
  spliced : Spliced v w s.cursor a'
  targets : (s.config.asks true).all isPlain = true → (∃ d', Targets a' d') → ∃ d, Targets s.cursor d
  goesOn : (s.config.asks true).all (·.1 = .expression) = true → (∃ d', GoesOnTo a' d') → ∃ d, GoesOnTo s.cursor d

/-- What the state asks of the next token is answered alike in both texts. -/
def Foreseen (v w : List Char) (s : State) (a' : Cursor) : Prop :=
  ∃ l ∈ s.config.asks true, Shares v w l.1 [l.2] s.cursor a'

/-- What a move reads. -/
inductive Reading (s z : State) : Prop where
  | nothing : z.cursor = s.cursor → z.config.asks true ⊆ s.config.asks true → Reading s z
  | sees {mode wanted yes no} : s.plan = .look mode wanted yes no → Sees mode wanted s.cursor →
      z.cursor = s.cursor → z.plan = yes → z.stack = s.stack → Reading s z
  | takes {mode wanted yes no} : s.plan = .take mode wanted yes no ∨ s.plan = .extend mode wanted yes no →
      Takes mode wanted s.cursor z.cursor → z.plan = yes → z.stack = s.stack → Reading s z
  | target {next} : s.plan = .target next → Targets s.cursor z.cursor → Reading s z

theorem Moves.reading (h : Moves limit s z) : Reading s z := by
  obtain ⟨cursor, ahead, expected, depth, opener, plan, stack⟩ := s
  cases h with
  | seen hplan hnext hamong => exact .sees hplan ⟨_, hnext, hamong⟩ rfl rfl rfl
  | take hplan hnext hamong => exact .takes (.inl hplan) ⟨_, hnext, hamong, rfl⟩ rfl rfl
  | extend hplan hnext hamong => exact .takes (.inr hplan) ⟨_, hnext, hamong, rfl⟩ rfl rfl
  | target hplan htarget => exact .target hplan (target?_eq_some_iff.mp htarget)
  | resume hplan hframe =>
      cases hplan
      cases hframe
      exact .nothing rfl fun l hl => mem_asksBefore.mpr (.inr ⟨rfl, hl⟩)
  | leave hplan hframe =>
      cases hplan
      cases hframe
      exact .nothing rfl fun l hl => hl
  | @unseen _ _ yes no _ hplan =>
      cases hplan
      have hend : no.mayEnd = true → (yes.mayEnd || no.mayEnd) = true := by
        intro h
        rw [h, Bool.or_true]
      exact .nothing rfl (asksBefore_subset (List.subset_append_right _ _) hend)
  | miss hplan | pass hplan | noTarget hplan =>
      cases hplan
      exact .nothing rfl (asksBefore_subset (List.subset_append_right _ _) id)
  | call hplan | enter hplan =>
      cases hplan
      exact .nothing rfl (asks_of_rule true _ _ _)
  | @jump rule hplan =>
      cases hplan
      exact .nothing rfl (asksBefore_subset (rule.asks_plan true) rule.mayEnd_plan)
  | opener hplan =>
      cases hplan
      exact .nothing rfl (asksBefore_subset (List.Subset.refl _) id)

/-! ### Tokens that are carried back -/

theorem Shares.look (h : Shares v w mode wanted a a') : ∃ u ∈ wanted, Shares v w mode [u] a a' := by
  obtain ⟨t, t', hnext, hnext', hsame, hamong⟩ := h
  obtain ⟨u, hu, haccepts⟩ := List.any_eq_true.mp hamong
  exact ⟨u, hu, t, t', hnext, hnext', hsame, by simpa [Token.isAmong] using haccepts⟩

/-- What the next token is in the other text, it is in this one. -/
theorem Shares.takes (h : Shares v w mode wanted a a') (htakes : Takes mode wanted a b) {others : List Terminal}
    (hsees : Sees mode others a') : Takes mode others a b := by
  obtain ⟨t, t', hnext, hnext', hsame, -⟩ := h
  refine ⟨t, hnext, ?_, (htakes.finish hnext).symm⟩
  rw [hsame.isAmong]
  exact hsees.isAmong hnext'

/-- One of those that are wanted does not exclude one of the others, if the next token is among both. -/
theorem Shares.overlap (h : Shares v w mode wanted a a') {others : List Terminal} (hsees : Sees mode others a') :
    ∃ t ∈ wanted, ∃ u ∈ others, t.excludes u = false := by
  obtain ⟨t, t', hnext, hnext', hsame, hamong⟩ := h
  rw [hsame.isAmong] at hamong
  obtain ⟨u, hu, haccepts⟩ := List.any_eq_true.mp hamong
  obtain ⟨x, hx, haccepts'⟩ := List.any_eq_true.mp (hsees.isAmong hnext')
  exact ⟨u, hu, x, hx, excludes_sound hnext' haccepts haccepts'⟩

theorem mayName_of_shares (h : Shares v w mode wanted a a')
    (hsees : Sees mode [.name, .kind .quotedIdentifier] a') : mayName wanted = true := by
  obtain ⟨t, ht, u, hu, hexcludes⟩ := h.overlap hsees
  refine List.any_eq_true.mpr ⟨t, ht, List.any_eq_true.mpr ⟨u, hu, ?_⟩⟩
  rw [hexcludes]
  rfl

/-- Nothing but a dot stands for a dot. -/
theorem wants_dot (h : Shares v w mode wanted a a') (hsees : Sees mode [.kind .dot] a') :
    wanted.contains (.kind .dot) = true := by
  obtain ⟨t, ht, u, hu, hexcludes⟩ := h.overlap hsees
  obtain rfl := List.mem_singleton.mp hu
  refine List.contains_iff_mem.mpr ?_
  cases t <;> simp_all [Terminal.excludes, Kind.isWord]

/-- Looks for a token that is there are in some mode. -/
theorem mode_of_looks (h : (looksFor mode wanted).all (·.1 = .expression) = true)
    (hshares : Shares v w mode wanted a a') : mode = .expression := by
  obtain ⟨u, hu, -⟩ := hshares.look
  simpa using List.all_eq_true.mp h _ (List.mem_map.mpr ⟨u, hu, rfl⟩)

theorem isPlain_expression {looks : List Look} (h : looks.all isPlain = true) :
    looks.all (·.1 = .expression) = true := by
  refine List.all_eq_true.mpr fun l hl => ?_
  have hplain := List.all_eq_true.mp h l hl
  simp only [isPlain, Bool.and_eq_true] at hplain
  exact hplain.1

/-- What is known of the place behind a token is known of the place before it. -/
theorem Aims.take (hshares : Shares v w mode wanted s.cursor a')
    (htakes : Takes mode wanted s.cursor z.cursor) (htakes' : Takes mode wanted a' b')
    (hasks : looksFor mode wanted ⊆ s.config.asks true) (ha : Spliced v w s.cursor a')
    (hname : ((looksFor mode wanted).all isPlain && mayName wanted) = true →
      (z.config.asks true).all (·.1 = .expression) = true)
    (hdot : (mode = .expression && wanted.contains (.kind .dot)) = true → (z.config.asks true).all isPlain = true)
    (hz : Aims v w z b') : Aims v w s a' := by
  refine ⟨ha, fun hplain ⟨d', htargets⟩ => ?_, fun hmode ⟨d', hgoes⟩ => ?_⟩
  · have hlooks := all_mono hasks hplain
    obtain rfl := mode_of_looks (isPlain_expression hlooks) hshares
    obtain ⟨e', hname', hgoes⟩ := targets_iff_goesOnTo.mp htargets
    obtain rfl := takes_unique htakes' hname'
    have hmay := mayName_of_shares hshares hname'.sees
    obtain ⟨d, hgoes'⟩ := hz.goesOn (hname (by rw [hlooks, hmay]; rfl)) ⟨d', hgoes⟩
    exact ⟨d, targets_iff_goesOnTo.mpr ⟨_, hshares.takes htakes hname'.sees, hgoes'⟩⟩
  · obtain rfl := mode_of_looks (all_mono hasks hmode) hshares
    rcases hgoes with hassign | ⟨e', hdot', hrest⟩
    · exact ⟨_, .inl (hshares.takes htakes hassign.sees)⟩
    · obtain rfl := takes_unique htakes' hdot'
      have hwants := wants_dot hshares hdot'.sees
      obtain ⟨d, hrest'⟩ := hz.targets (hdot (by rw [hwants]; rfl)) ⟨d', hrest⟩
      exact ⟨d, .inr ⟨_, hshares.takes htakes hdot'.sees, hrest'⟩⟩

/-- Where a target stands, and its first name in the other text too, nothing else has to be known. -/
theorem aims_at_target (htargets : Targets s.cursor d)
    (hshares : Shares v w .expression [.name, .kind .quotedIdentifier] s.cursor a') (ha : Spliced v w s.cursor a') :
    Aims v w s a' := by
  have hname := hshares.mirrors _ htargets.name_sees
  refine ⟨ha, fun _ _ => ⟨d, htargets⟩, fun _ ⟨d', hgoes⟩ => ?_⟩
  rcases hgoes with hassign | ⟨_, hdot, -⟩
  · exact absurd hname (hassign.not_sees (by decide))
  · exact absurd hname (hdot.not_sees (by decide))

/-- A token that is asked for, and stands in both texts, is foreseen. -/
theorem foreseen_of_shares (hasks : looksFor mode wanted ⊆ s.config.asks true)
    (hshares : Shares v w mode wanted s.cursor a') : Foreseen v w s a' := by
  obtain ⟨u, hu, hshares'⟩ := hshares.look
  exact ⟨(mode, u), hasks (List.mem_map.mpr ⟨u, hu, rfl⟩), hshares'⟩

theorem foreseen_at_target {next : Plan} (hplan : s.plan = .target next)
    (hshares : Shares v w .expression [.name, .kind .quotedIdentifier] s.cursor a') : Foreseen v w s a' := by
  refine foreseen_of_shares ?_ hshares
  rw [Config.asks, State.config, hplan]
  exact List.Subset.trans (List.subset_append_left _ _) (List.subset_append_left _ _)

/-- In front of a look that succeeds, the same is foreseen as behind it: both are answered by one token, since the
mode does not change. -/
theorem carries_look {yes no : Plan} (hlook : s.plan = .look mode wanted yes no) (hsees : Sees mode wanted s.cursor)
    (hcursor : z.cursor = s.cursor) (hyes : z.plan = yes) (hstack : z.stack = s.stack) (hfits : s.config.Fits)
    (hplain : s.plan.staysPlain (stackAsks true s.stack) = true) (hz : Aims v w z b') (hforeseen : Foreseen v w z b') :
    Aims v w s b' ∧ Foreseen v w s b' := by
  have hplan := hfits.plan
  simp only [State.config, hlook, Plan.fits, Bool.and_eq_true] at hplan
  obtain ⟨⟨-, hmode⟩, -⟩ := hplan
  rw [hlook] at hplain
  have hasks : z.config.asks true = yes.asksBefore true (stackAsks true s.stack) := by
    rw [Config.asks, State.config, hyes, hstack]
  have hlooks : looksFor mode wanted ⊆ s.config.asks true := by
    rw [Config.asks, State.config, hlook]
    exact List.Subset.trans (List.subset_append_left _ _) (List.subset_append_left _ _)
  obtain ⟨hb, htargets, hgoes⟩ := hz
  obtain ⟨l, hl, t, t', hnext, hnext', hsame, -⟩ := hforeseen
  rw [hcursor] at hb htargets hgoes hnext
  obtain rfl : l.1 = mode := by simpa using List.all_eq_true.mp hmode l (hasks ▸ hl)
  have hshares : Shares v w l.1 wanted s.cursor b' := ⟨t, t', hnext, hnext', hsame, hsees.isAmong hnext⟩
  refine ⟨⟨hb, fun _ => htargets (hasks ▸ hplain), fun hall => hgoes ?_⟩, foreseen_of_shares hlooks hshares⟩
  rw [hasks]
  rw [mode_of_looks (all_mono hlooks hall) hshares] at hmode
  exact hmode

/-- In front of a token that is taken, that token is foreseen. -/
theorem carries_take {yes no : Plan} (hw : Spaced w)
    (hkind : s.plan = .take mode wanted yes no ∨ s.plan = .extend mode wanted yes no)
    (htakes : Takes mode wanted s.cursor z.cursor) (hyes : z.plan = yes) (hstack : z.stack = s.stack)
    (hplain : s.plan.staysPlain (stackAsks true s.stack) = true) (hspares : s.plan.sparesEnd = true)
    (hz : Aims v w z b') : ∃ a', Aims v w s a' ∧ Foreseen v w s a' := by
  have hasks : z.config.asks true = yes.asksBefore true (stackAsks true s.stack) := by
    rw [Config.asks, State.config, hyes, hstack]
  have hlooks : looksFor mode wanted ⊆ s.config.asks true := by
    rw [Config.asks, State.config]
    rcases hkind with hkind | hkind <;> rw [hkind] <;>
      exact List.Subset.trans (List.subset_append_left _ _) (List.subset_append_left _ _)
  have hend : wanted.contains (.kind .endOfText) = false := by
    rcases hkind with hkind | hkind <;> simpa only [hkind, Plan.sparesEnd, Bool.not_eq_true'] using hspares
  obtain ⟨a', ha, htakes', hshares⟩ := takes_shares hw htakes hend hz.spliced
  have hstays : ((!((looksFor mode wanted).all isPlain && mayName wanted) ||
        (z.config.asks true).all (·.1 = .expression)) &&
      (!(mode = .expression && wanted.contains (.kind .dot)) || (z.config.asks true).all isPlain)) = true := by
    rw [hasks]
    rcases hkind with hkind | hkind <;> simpa only [hkind, Plan.staysPlain] using hplain
  simp only [Bool.and_eq_true, Bool.or_eq_true, Bool.not_eq_true'] at hstays
  refine ⟨a', Aims.take hshares htakes htakes' hlooks ha (fun h => ?_) (fun h => ?_) hz, foreseen_of_shares hlooks hshares⟩
  · exact hstays.1.resolve_left fun hfalse => by cases h.symm.trans hfalse
  · exact hstays.2.resolve_left fun hfalse => by cases h.symm.trans hfalse

/-- **A move carries back what is known of the place behind it.** -/
theorem Reading.carries (hw : Spaced w) (h : Reading s z) (hfits : s.config.Fits)
    (hplain : s.plan.staysPlain (stackAsks true s.stack) = true) (hspares : s.plan.sparesEnd = true)
    (hz : Aims v w z b') (hforeseen : z.cursor = s.cursor → Foreseen v w z b') :
    ∃ a', Aims v w s a' ∧ Foreseen v w s a' := by
  cases h with
  | nothing hcursor hasks =>
      obtain ⟨hb, htargets, hgoes⟩ := hz
      rw [hcursor] at hb htargets hgoes
      obtain ⟨l, hl, hshares⟩ := hforeseen hcursor
      rw [hcursor] at hshares
      exact ⟨b', ⟨hb, fun hall => htargets (all_mono hasks hall), fun hall => hgoes (all_mono hasks hall)⟩,
        l, hasks hl, hshares⟩
  | sees hlook hsees hcursor hyes hstack =>
      exact ⟨b', carries_look hlook hsees hcursor hyes hstack hfits hplain hz (hforeseen hcursor)⟩
  | takes hkind htakes hyes hstack => exact carries_take hw hkind htakes hyes hstack hplain hspares hz
  | target hkind htargets =>
      obtain ⟨a', ha, -, hshares⟩ := targets_share hw htargets hz.spliced
      exact ⟨a', aims_at_target htargets hshares ha, foreseen_at_target hkind hshares⟩

/-! ## Runs up to the seam -/

/-- A choice that is not taken in this text is not taken in the other. -/
theorem Foreseen.misses {no : Plan} {rest : List Look} (hs : Foreseen v w z a')
    (hasks : z.config.asks true ⊆ no.asksBefore true rest)
    (hexcludes : (no.asksBefore true rest).all (·.excludes mode wanted) = true) :
    ∃ t', a'.next mode = .ok t' ∧ t'.isAmong wanted = false := by
  obtain ⟨l, hl, hshares⟩ := hs
  obtain ⟨t, t', -, hnext', hsame, hamong⟩ := hshares
  rw [hsame.isAmong] at hamong
  exact excludes_sees ⟨t', hnext', hamong⟩ (List.all_eq_true.mp hexcludes l (hasks hl))

/-- **Each move before the seam is a move in the other text.** -/
theorem Moves.agrees (hw : Spaced w) (h : Moves limit s z) (hfits : s.config.Fits)
    (hplain : s.plan.staysPlain (stackAsks true s.stack) = true) (hspares : s.plan.sparesEnd = true)
    (ha : Spliced v w s.cursor a') (hz : Aims v w z b') (hforeseen : z.cursor = s.cursor → Foreseen v w z b') :
    s.plan.Agrees (Spliced v w) (SameToken v w) s.cursor a' := by
  have hfit := hfits.plan
  have hstill : z.cursor = s.cursor → b' = a' := by
    intro hcursor
    have hb := hz.spliced
    rw [hcursor] at hb
    exact hb.unique ha
  obtain ⟨cursor, ahead, expected, depth, opener, plan, stack⟩ := s
  cases h with
  | resume hplan | leave hplan | call hplan | jump hplan | enter hplan =>
      cases hplan
      trivial
  | seen hplan hnext hamong =>
      cases hplan
      obtain rfl := hstill rfl
      intro t₀ hnext₀
      simp only [State.config, Plan.fits, Bool.and_eq_true] at hfit
      obtain ⟨⟨-, hmode⟩, -⟩ := hfit
      obtain ⟨l, hl, t, t', hnext₁, hnext', hsame, -⟩ := hforeseen rfl
      obtain rfl : l.1 = _ := by simpa using List.all_eq_true.mp hmode l hl
      obtain rfl : t₀ = t := Except.ok.inj (hnext₀.symm.trans hnext₁)
      exact ⟨t', hnext', hsame.isAmong _⟩
  | unseen hplan hnext hamong =>
      cases hplan
      obtain rfl := hstill rfl
      intro t₀ hnext₀
      simp only [State.config, Plan.fits, Bool.and_eq_true] at hfit
      obtain ⟨⟨⟨-, hexcludes⟩, -⟩, -⟩ := hfit
      obtain ⟨t', hnext', hother⟩ := (hforeseen rfl).misses (List.Subset.refl _) hexcludes
      cases hnext.symm.trans hnext₀
      exact ⟨t', hnext', hamong.trans hother.symm⟩
  | miss hplan hnext hamong | pass hplan hnext hamong =>
      cases hplan
      obtain rfl := hstill rfl
      intro t₀ hnext₀
      simp only [State.config, Plan.fits, Bool.and_eq_true] at hfit
      obtain ⟨t', hnext', hother⟩ := (hforeseen rfl).misses (List.Subset.refl _) hfit.2
      cases hnext.symm.trans hnext₀
      refine ⟨t', hnext', hamong.trans hother.symm, fun hamong' => ?_⟩
      rw [hamong] at hamong'
      cases hamong'
  | take hplan hnext hamong | extend hplan hnext hamong =>
      cases hplan
      intro t₀ hnext₀
      cases hnext.symm.trans hnext₀
      rw [Plan.sparesEnd, Bool.not_eq_true'] at hspares
      obtain ⟨a₁, t', ha₁, hnext', hsame, -⟩ := next_same hw hnext (text_ne_nil hnext hamong hspares) hz.spliced
      obtain rfl := ha₁.unique ha
      exact ⟨t', hnext', hsame.isAmong _, fun _ => hsame.finish⟩
  | opener hplan hnext =>
      cases hplan
      obtain rfl := hstill rfl
      intro t₀ hnext₀
      obtain ⟨l, hl, t, t', hnext₁, hnext', hsame, -⟩ := hforeseen rfl
      obtain hl : l.1 = .expression := by simpa using List.all_eq_true.mp hplain l hl
      rw [hl] at hnext₁ hnext'
      obtain rfl : t₀ = t := Except.ok.inj (hnext₀.symm.trans hnext₁)
      exact ⟨t', hnext', hsame⟩
  | target hplan htarget =>
      cases hplan
      have htargets := target?_eq_some_iff.mp htarget
      refine ⟨fun d hd => ?_, fun _ => ⟨_, htargets⟩⟩
      cases htarget.symm.trans (target?_eq_some_iff.mpr hd)
      obtain ⟨a₁, ha₁, htargets', -⟩ := targets_share hw htargets hz.spliced
      obtain rfl := ha₁.unique ha
      exact ⟨_, htargets', hz.spliced⟩
  | @noTarget next hplan htarget =>
      cases hplan
      obtain rfl := hstill rfl
      refine ⟨fun d hd => ?_, fun htargets => hz.targets ?_ htargets⟩
      · cases htarget.symm.trans (target?_eq_some_iff.mpr hd)
      · simp only [State.config, Plan.fits, Bool.and_eq_true] at hfit
        obtain ⟨-, hboolean⟩ := hfit
        split at hboolean
        · exact (show (ofNegation ++ []).all isPlain = true by decide)
        · cases hboolean

/-- Moves up to a place `P`, made by states in front of it. -/
abbrev MovesUpTo (limit : Nat) (P : Cursor → Prop) (s z : State) : Prop := Moves limit s z ∧ ¬ P s.cursor

/-- The first state of a run that comes to a place. -/
theorem exists_first {P : Cursor → Prop} (h : ReflTransGen (Moves limit) s z) (hz : P z.cursor) :
    ∃ y, ReflTransGen (MovesUpTo limit P) s y ∧ P y.cursor ∧ ReflTransGen (Moves limit) y z := by
  induction h using ReflTransGen.head_induction_on with
  | refl => exact ⟨z, .refl, hz, .refl⟩
  | @head x _ hmoves hruns ih =>
      by_cases hx : P x.cursor
      · exact ⟨x, .refl, hx, hruns.head hmoves⟩
      · obtain ⟨y, hpath, hy, hrest⟩ := ih
        exact ⟨y, hpath.head ⟨hmoves, hx⟩, hy, hrest⟩

/-- A state from which the other text leads to where this one does. -/
structure Nears (limit : Nat) (v w : List Char) (P : Cursor → Prop) (y s : State) : Prop where
  known : ∃ a', Aims v w s a' ∧ (P s.cursor ∨ Foreseen v w s a')
  comes : ∀ s', Twins (Spliced v w) (SameToken v w) s s' →
    ∃ y', ReflTransGen (Moves limit) s' y' ∧ Twins (Spliced v w) (SameToken v w) y y'

theorem Nears.back {P : Cursor → Prop} (hw : Spaced w) (hs : ReflTransGen (Moves limit) (start text) s)
    (h : MovesUpTo limit P s z) (hz : Nears limit v w P y z) : Nears limit v w P y s := by
  obtain ⟨hmoves, hbefore⟩ := h
  obtain ⟨⟨b', haims, hforeseen⟩, hcomes⟩ := hz
  have hfits := runs_fit hs
  have hplain := staysPlain_of_belongs (runs_belong Rule.stays_plain hs).plan
  have hspares := Plan.all_self (runs_all Rule.spares_end hs).plan
  have hstill : z.cursor = s.cursor → Foreseen v w z b' := by
    intro hcursor
    rw [hcursor] at hforeseen
    exact hforeseen.resolve_left hbefore
  obtain ⟨a', haims', hforeseen'⟩ := hmoves.reading.carries hw hfits hplain hspares haims hstill
  refine ⟨⟨a', haims', .inr hforeseen'⟩, fun s' htwins => ?_⟩
  have hagrees := hmoves.agrees hw hfits hplain hspares htwins.cursor haims hstill
  obtain ⟨z', hmoves', hz⟩ := hmoves.twins (runs_open hs) htwins hagrees
  obtain ⟨y', hruns, hy⟩ := hcomes z' hz
  exact ⟨y', hruns.head hmoves', hy⟩

/-- **A run comes to a seam in the other text too.** If a run comes to a state at the seam, or to one that
foresees what it asks, then the run on the other text comes to its twin. -/
theorem runs_to_seam {P : Cursor → Prop} {u : List Char} (hw : Spaced w)
    (hpath : ReflTransGen (MovesUpTo limit P) (start (u ++ v)) y) (hy : Aims v w y b')
    (hforeseen : P y.cursor ∨ Foreseen v w y b') :
    ∃ y', ReflTransGen (Moves limit) (start (u ++ w)) y' ∧ Twins (Spliced v w) (SameToken v w) y y' := by
  have hnears : ∀ s, ReflTransGen (MovesUpTo limit P) s y → ReflTransGen (Moves limit) (start (u ++ v)) s →
      Nears limit v w P y s := by
    intro s hruns
    induction hruns using ReflTransGen.head_induction_on with
    | refl => exact fun _ => ⟨⟨b', hy, hforeseen⟩, fun y' htwins => ⟨y', .refl, htwins⟩⟩
    | head hmoves _ ih => exact fun hs => (ih (hs.tail hmoves.1)).back hw hs hmoves
  obtain ⟨⟨a', haims, -⟩, hcomes⟩ := hnears _ hpath .refl
  refine hcomes _ (start_twins ?_)
  obtain ⟨u', htext, rfl, hslash⟩ := haims.spliced
  obtain rfl : u = u' := List.append_cancel_right htext
  exact ⟨u, rfl, rfl, hslash⟩

end Esql.Syntax
