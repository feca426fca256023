import Esql.Proofs.Recognizer.Decides

/-!
# `Proofs.Recognizer.Splice` — a run seen in another text

Two texts may agree up to some point and go on differently. If a run on one of them has come so far, what it
has left to read there could be put in front of the other: if the state could read how the other text goes on,
the other text could be read from its start (`Traced`).

The run on the one text is not a run on the other, because the recognizer may have looked beyond the point at
which the texts part. But the tokens that it has taken are tokens of both, and a choice not to take a token is
free. What remains are the looks that succeeded since the last token was taken. They are kept in a list, with
what they promise: the next token is taken in the same mode, and nothing is noted but what was looked for.
-/

namespace Esql.Syntax

open State Look
open Relation (ReflTransGen)

variable {limit : Nat} {s s' : State} {a a' b b' z : Cursor} {v w : List Char} {mode : Mode}
  {wanted : List Terminal} {t t' : Token}

/-! ## Tokens that stand in both texts -/

/-- A token that stands in both texts, before the seam. -/
structure SameToken (v w : List Char) (t t' : Token) : Prop where
  symbol : t.toSymbol = t'.toSymbol
  text : t.text = t'.text
  start : t.start = t'.start
  finish : Spliced v w t.finish t'.finish

theorem Spliced.unique (h : Spliced v w a b) (h' : Spliced v w a b') : b = b' := by
  obtain ⟨u, hrest, rfl, -⟩ := h
  obtain ⟨u', hrest', rfl, -⟩ := h'
  rw [List.append_cancel_right (hrest.symm.trans hrest')]

/-- A token that ends at the seam or before it stands at the same place in the other text. -/
theorem next_same (hw : Spaced w) (h : a.next mode = .ok t) (htext : t.text ≠ []) (hb : Spliced v w t.finish b) :
    ∃ a' t', Spliced v w a a' ∧ a'.next mode = .ok t' ∧ SameToken v w t t' ∧ t'.finish = b := by
  obtain ⟨a', t', ha, hnext, hsymbol, hsame, rfl⟩ := next_splice hw h htext hb
  refine ⟨a', t', ha, hnext, ⟨hsymbol.symm, hsame.symm, ?_, hb⟩, rfl⟩
  -- Between the seam and the token the texts are the same, and so are the trivia in front of it.
  obtain ⟨gap, hgap⟩ := next_ok h
  obtain ⟨gap', hgap'⟩ := next_ok hnext
  obtain ⟨u, hrest, rfl, -⟩ := ha
  obtain ⟨r, htail, hplace, -⟩ := hb
  have htail' : t'.rest = r ++ w := congrArg Cursor.rest hplace
  have hu : u ++ v = gap ++ (t.text ++ r) ++ v := by
    rw [← hrest, hgap.text, show t.rest = r ++ v from htail]
    simp only [List.append_assoc]
  have hu' : u ++ w = gap' ++ (t.text ++ r) ++ w := by
    rw [show u ++ w = gap' ++ (t'.text ++ t'.rest) from hgap'.text, htail', hsame]
    simp only [List.append_assoc]
  have hgaps := (List.append_cancel_right hu).symm.trans (List.append_cancel_right hu')
  rw [hgap.start, hgap'.start, List.append_cancel_right hgaps]

theorem SameToken.isAmong (h : SameToken v w t t') (wanted : List Terminal) :
    t.isAmong wanted = t'.isAmong wanted := by
  simp only [Token.isAmong, h.symbol]

/-- The next token is read alike in both texts, and is one of these. -/
def Shares (v w : List Char) (mode : Mode) (wanted : List Terminal) (a a' : Cursor) : Prop :=
  ∃ t t', a.next mode = .ok t ∧ a'.next mode = .ok t' ∧ SameToken v w t t' ∧ t.isAmong wanted = true

theorem takes_shares (hw : Spaced w) (h : Takes mode wanted a b)
    (hend : wanted.contains (.kind .endOfText) = false) (hb : Spliced v w b b') :
    ∃ a', Spliced v w a a' ∧ Takes mode wanted a' b' ∧ Shares v w mode wanted a a' := by
  obtain ⟨t, hnext, hamong, rfl⟩ := h
  obtain ⟨a', t', ha, hnext', hsame, rfl⟩ := next_same hw hnext (text_ne_nil hnext hamong hend) hb
  exact ⟨a', ha, ⟨t', hnext', hsame.isAmong wanted ▸ hamong, rfl⟩, t, t', hnext, hnext', hsame, hamong⟩

/-- A place in the other text that sees what is seen at a place in this one. -/
def Mirrors (mode : Mode) (a b : Cursor) : Prop := ∀ wanted, Sees mode wanted a → Sees mode wanted b

theorem Shares.mirrors (h : Shares v w mode wanted a a') : Mirrors mode a a' := by
  obtain ⟨t, t', hnext, hnext', hsame, -⟩ := h
  intro others hsees
  exact ⟨t', hnext', hsame.isAmong others ▸ hsees.isAmong hnext⟩

theorem targets_share (hw : Spaced w) (h : Targets a b) (hb : Spliced v w b b') :
    ∃ a', Spliced v w a a' ∧ Targets a' b' ∧ Shares v w .expression [.name, .kind .quotedIdentifier] a a' := by
  induction h with
  | last hname hassign =>
      obtain ⟨c', hc, hassign', -⟩ := takes_shares hw hassign rfl hb
      obtain ⟨a', ha, hname', hshares⟩ := takes_shares hw hname rfl hc
      exact ⟨a', ha, .last hname' hassign', hshares⟩
  | more hname hdot _ ih =>
      obtain ⟨d', hd, hrest, -⟩ := ih hb
      obtain ⟨c', hc, hdot', -⟩ := takes_shares hw hdot rfl hd
      obtain ⟨a', ha, hname', hshares⟩ := takes_shares hw hname rfl hc
      exact ⟨a', ha, .more hname' hdot' hrest, hshares⟩

/-! ## What is asked becomes less -/

theorem mem_asksBefore {all : Bool} {plan : Plan} {rest : List Look} {l : Look} :
    l ∈ plan.asksBefore all rest ↔ l ∈ plan.asks all ∨ (plan.mayEnd = true ∧ l ∈ rest) := by
  unfold Plan.asksBefore
  by_cases hend : plan.mayEnd = true <;> simp [hend]

theorem asksBefore_subset {all : Bool} {plan next : Plan} {rest : List Look}
    (hasks : next.asks all ⊆ plan.asks all) (hend : next.mayEnd = true → plan.mayEnd = true) :
    next.asksBefore all rest ⊆ plan.asksBefore all rest := by
  intro l hl
  exact mem_asksBefore.mpr ((mem_asksBefore.mp hl).imp (fun h => hasks h) (And.imp_left hend))

/-- Where a rule stands in front of a plan, its own plan asks no more. -/
theorem asks_of_rule (all : Bool) (rule : Rule) (next : Plan) (rest : List Look) :
    rule.plan.asksBefore all (next.asksBefore all rest) ⊆ (Plan.call rule next).asksBefore all rest := by
  intro l hl
  simp only [mem_asksBefore, Plan.asks, Plan.mayEnd] at hl ⊢
  rcases hl with h | ⟨hend, h | ⟨hend', h⟩⟩
  · exact .inl (List.mem_append_left _ (rule.asks_plan all h))
  · rw [if_pos (rule.mayEnd_plan hend)]
    exact .inl (List.mem_append_right _ h)
  · exact .inr ⟨by rw [rule.mayEnd_plan hend, hend']; rfl, h⟩

/-! ## Traces -/

/-- What a state has left to read, in a text that goes on in another way, can be read there from the start;
provided that the looks, which succeeded since the last token was taken, succeed there too. -/
structure Traced (limit : Nat) (text : List Char) (looks : List (Mode × List Terminal)) (s : State) : Prop where
  seen : ∀ p ∈ looks, Sees p.1 p.2 s.cursor
  mode : ∀ p ∈ looks, ∀ l ∈ s.config.asks true, l.1 = p.1
  noted : ∀ p ∈ looks, ∀ l ∈ s.config.asks false, l ∈ looksFor p.1 p.2
  back : ∀ v w a z, Spaced w → Spliced v w s.cursor a → (∀ p ∈ looks, Sees p.1 p.2 a) →
    s.config.Reads limit a z →
    ∃ a₀, Spliced v w (Cursor.start text) a₀ ∧ (start text).config.Reads limit a₀ z

variable {text : List Char} {looks : List (Mode × List Terminal)}

theorem start_traced (limit : Nat) (text : List Char) : Traced limit text [] (start text) :=
  ⟨fun _ h => absurd h List.not_mem_nil, fun _ h => absurd h List.not_mem_nil,
    fun _ h => absurd h List.not_mem_nil, fun _ _ a _ _ hsplice _ hreads => ⟨a, hsplice, hreads⟩⟩

/-- A move that takes nothing and sees nothing. -/
theorem Traced.stays (h : Traced limit text looks s) (hcursor : s'.cursor = s.cursor)
    (hasks : ∀ all, s'.config.asks all ⊆ s.config.asks all)
    (hleads : ∀ a, Leads limit s.config a s'.config a) : Traced limit text looks s' := by
  refine ⟨?_, fun p hp l hl => h.mode p hp l (hasks true hl), fun p hp l hl => h.noted p hp l (hasks false hl), ?_⟩
  · rw [hcursor]
    exact h.seen
  · intro v w a z hw hsplice hlooks hreads
    rw [hcursor] at hsplice
    exact h.back v w a z hw hsplice hlooks ((hleads a).reads hreads)

/-- A move that takes something. -/
theorem Traced.takes (h : Traced limit text looks s)
    (hback : ∀ v w b, Spaced w → Spliced v w s'.cursor b →
      ∃ a, Spliced v w s.cursor a ∧ Leads limit s.config a s'.config b ∧ ∀ p ∈ looks, Sees p.1 p.2 a) :
    Traced limit text [] s' := by
  refine ⟨fun _ h => absurd h List.not_mem_nil, fun _ h => absurd h List.not_mem_nil,
    fun _ h => absurd h List.not_mem_nil, ?_⟩
  intro v w b z hw hsplice _ hreads
  obtain ⟨a, hsplice', hleads, hlooks⟩ := hback v w b hw hsplice
  exact h.back v w a z hw hsplice' hlooks (hleads.reads hreads)

/-- A move that takes a token. The looks before it were in the mode in which it is taken, so they looked at
the same token. -/
theorem Traced.takes_token (h : Traced limit text looks s) {wanted : List Terminal}
    (htakes : Takes mode wanted s.cursor s'.cursor) (hend : wanted.contains (.kind .endOfText) = false)
    (hasks : looksFor mode wanted ⊆ s.config.asks true)
    (hleads : ∀ a b, Takes mode wanted a b → Leads limit s.config a s'.config b) : Traced limit text [] s' := by
  refine h.takes fun v w b hw hsplice => ?_
  obtain ⟨a, hsplice', htakes', hshares⟩ := takes_shares hw htakes hend hsplice
  refine ⟨a, hsplice', hleads a b htakes', fun p hp => ?_⟩
  obtain ⟨l, hl, -⟩ := sees_iff.mp htakes.sees
  obtain ⟨t, -, rfl⟩ := List.mem_map.mp hl
  obtain rfl : mode = p.1 := h.mode p hp _ (hasks hl)
  exact hshares.mirrors p.2 (h.seen p hp)

/-- A move that looks at a token and finds what it looks for. -/
theorem Traced.sees (h : Traced limit text looks s) {wanted : List Terminal} {yes no : Plan}
    (hplan : s.plan = .look mode wanted yes no) (hsees : Sees mode wanted s.cursor) (hfits : s.config.Fits) :
    Traced limit text ((mode, wanted) :: looks) { s with plan := yes } := by
  obtain ⟨cursor, ahead, expected, depth, opener, plan, stack⟩ := s
  cases hplan
  obtain ⟨hplan, -⟩ := hfits
  simp only [config, Plan.fits, Bool.and_eq_true] at hplan
  obtain ⟨⟨-, hmode⟩, hnoted⟩ := hplan
  -- The earlier looks were in the same mode and looked for no less.
  have hasks : ∀ all, looksFor mode wanted ⊆ Config.asks all ⟨depth, .look mode wanted yes no, stack⟩ := by
    intro all
    exact List.Subset.trans (List.subset_append_left _ _) (List.subset_append_left _ _)
  have hnoted' := subset_of_among hnoted
  refine ⟨?_, ?_, ?_, ?_⟩
  · intro p hp
    cases hp with
    | head => exact hsees
    | tail _ hp => exact h.seen p hp
  · intro p hp l hl
    have hl' : l.1 = mode := by simpa using List.all_eq_true.mp hmode l hl
    cases hp with
    | head => exact hl'
    | tail _ hp =>
        obtain ⟨k, hk, -⟩ := sees_iff.mp hsees
        obtain ⟨t, -, rfl⟩ := List.mem_map.mp hk
        exact hl'.trans (h.mode p hp _ (hasks true hk))
  · intro p hp l hl
    cases hp with
    | head => exact hnoted' hl
    | tail _ hp => exact h.noted p hp l (hasks false (hnoted' hl))
  · intro v w a z hw hsplice hlooks hreads
    have hleads : Config.Reads limit ⟨depth, .look mode wanted yes no, stack⟩ a z :=
      Leads.reads (.seen (hlooks (mode, wanted) (.head _))) hreads
    exact h.back v w a z hw hsplice (fun p hp => hlooks p (.tail _ hp)) hleads

/-- **Every move is traced.** -/
theorem Moves.traced (h : Moves limit s s') (hfits : s.config.Fits) (hall : s.All Plan.sparesEnd)
    (hs : Traced limit text looks s) :
    ∃ looks', Traced limit text looks' s' ∧ (looks' = [] ∨ s'.cursor = s.cursor) := by
  have hspares := Plan.all_self hall.plan
  obtain ⟨cursor, ahead, expected, depth, opener, plan, stack⟩ := s
  cases h with
  | seen hplan hnext hamong =>
      exact ⟨_, hs.sees hplan ⟨_, hnext, hamong⟩ hfits, .inr rfl⟩
  | take hplan hnext hamong =>
      cases hplan
      rw [Plan.sparesEnd, Bool.not_eq_true'] at hspares
      refine ⟨[], hs.takes_token ⟨_, hnext, hamong, rfl⟩ hspares ?_ fun a b htakes => .take htakes, .inl rfl⟩
      exact List.Subset.trans (List.subset_append_left _ _) (List.subset_append_left _ _)
  | extend hplan hnext hamong =>
      cases hplan
      rw [Plan.sparesEnd, Bool.not_eq_true'] at hspares
      refine ⟨[], hs.takes_token ⟨_, hnext, hamong, rfl⟩ hspares ?_ fun a b htakes => .extend htakes, .inl rfl⟩
      exact List.Subset.trans (List.subset_append_left _ _) (List.subset_append_left _ _)
  | target hplan htarget =>
      cases hplan
      refine ⟨[], hs.takes fun v w b hw hsplice => ?_, .inl rfl⟩
      have htargets := target?_eq_some_iff.mp htarget
      obtain ⟨a, hsplice', htargets', hshares⟩ := targets_share hw htargets hsplice
      refine ⟨a, hsplice', .target htargets', fun p hp => ?_⟩
      have hmode : Mode.expression = p.1 := by
        refine hs.mode p hp (.expression, .name) (mem_asksBefore.mpr (.inl ?_))
        exact List.mem_append_left _ (.head _)
      have hseen := hs.seen p hp
      rw [← hmode] at hseen ⊢
      exact hshares.mirrors p.2 hseen
  | resume hplan hstack =>
      cases hplan
      cases hstack
      exact ⟨looks, hs.stays rfl (fun all l hl => mem_asksBefore.mpr (.inr ⟨rfl, hl⟩)) fun a => .resume, .inr rfl⟩
  | leave hplan hstack =>
      cases hplan
      cases hstack
      exact ⟨looks, hs.stays rfl (fun all l hl => hl) fun a => .leave, .inr rfl⟩
  | @unseen _ _ yes no _ hplan =>
      cases hplan
      have hend : no.mayEnd = true → (yes.mayEnd || no.mayEnd) = true := by
        intro h
        rw [h, Bool.or_true]
      exact ⟨looks, hs.stays rfl (fun all => asksBefore_subset (List.subset_append_right _ _) hend)
        fun a => .unseen, .inr rfl⟩
  | miss hplan =>
      cases hplan
      exact ⟨looks, hs.stays rfl (fun all => asksBefore_subset (List.subset_append_right _ _) id)
        fun a => .miss, .inr rfl⟩
  | pass hplan =>
      cases hplan
      exact ⟨looks, hs.stays rfl (fun all => asksBefore_subset (List.subset_append_right _ _) id)
        fun a => .pass, .inr rfl⟩
  | call hplan =>
      cases hplan
      exact ⟨looks, hs.stays rfl (fun all => asks_of_rule all _ _ _) fun a => .call, .inr rfl⟩
  | @jump rule hplan =>
      cases hplan
      exact ⟨looks, hs.stays rfl (fun all => asksBefore_subset (rule.asks_plan all) rule.mayEnd_plan)
        fun a => .jump, .inr rfl⟩
  | opener hplan =>
      cases hplan
      exact ⟨looks, hs.stays rfl (fun all => asksBefore_subset (List.Subset.refl _) id)
        fun a => .opener, .inr rfl⟩
  | enter hplan hdepth =>
      cases hplan
      exact ⟨looks, hs.stays rfl (fun all => asks_of_rule all _ _ _) fun a => .enter hdepth, .inr rfl⟩
  | noTarget hplan =>
      cases hplan
      exact ⟨looks, hs.stays rfl (fun all => asksBefore_subset (List.subset_append_right _ _) id)
        fun a => .noTarget, .inr rfl⟩

end Esql.Syntax
