import Esql.Proofs.Grammar.Ahead
import Esql.Proofs.Recognizer.Leads

/-!
# `Proofs.Recognizer.Decides` — each choice is the only one

The recognizer decides a choice by the next token. In a state whose plans fit (`Config.Fits`), a reading of
what is left goes the way that is decided, since the token that decides is none of those with which the other
way begins. So a reading is never lost (`Moves.reads`), and a text that can be read is accepted.

With the other direction, from `Leads`, the language of the recognizer is that of the grammar
(`check_iff_derives`).
-/

namespace Esql.Syntax

open State Look
open Relation (ReflTransGen)

variable {limit : Nat} {s s' : State} {a b z : Cursor}

/-! ## What may follow in a state -/

/-- What may be asked where the frames go on. -/
def stackAsks (all : Bool) : List Frame → List Look
  | [] => expressions [.kind .endOfText]
  | .resume plan :: stack => plan.asksBefore all (stackAsks all stack)
  | .leave :: stack => stackAsks all stack

/-- What a configuration may ask of the next token. -/
def Config.asks (all : Bool) (c : Config) : List Look := c.plan.asksBefore all (stackAsks all c.stack)

/-- Each frame fits in front of those below it. -/
def stackFits : List Frame → Prop
  | [] => True
  | .resume plan :: stack => plan.fits (stackAsks true stack) (stackAsks false stack) = true ∧ stackFits stack
  | .leave :: stack => stackFits stack

/-- All choices of a configuration are decided by the next token. -/
structure Config.Fits (c : Config) : Prop where
  plan : c.plan.fits (stackAsks true c.stack) (stackAsks false c.stack) = true
  stack : stackFits c.stack

theorem start_fits (text : List Char) : (start text).config.Fits :=
  ⟨Rule.fits .statement, trivial⟩

theorem rule_fits {rule : Rule} {rest noted : List Look} (hrest : among rest rule.follow = true)
    (hnoted : among noted rule.follow = true) : rule.plan.fits rest noted = true :=
  fits_mono (subset_of_among hrest) (subset_of_among hnoted) rule.fits

/-- No move leads to where a choice is not decided. -/
theorem Leads.fits {c c' : Config} (h : Leads limit c a c' b) (hc : c.Fits) : c'.Fits := by
  obtain ⟨hplan, hstack⟩ := hc
  cases h with
  | resume => exact ⟨hstack.1, hstack.2⟩
  | leave => exact ⟨rfl, hstack⟩
  | seen | unseen | take | miss | extend | pass =>
      simp only [Plan.fits, Bool.and_eq_true] at hplan
      exact ⟨by simp only [hplan], hstack⟩
  | call | enter =>
      simp only [Plan.fits, Bool.and_eq_true] at hplan
      obtain ⟨⟨hnext, hrest⟩, hnoted⟩ := hplan
      exact ⟨rule_fits hrest hnoted, hnext, hstack⟩
  | jump =>
      simp only [Plan.fits, Bool.and_eq_true] at hplan
      exact ⟨rule_fits hplan.1 hplan.2, hstack⟩
  | opener =>
      simp only [Plan.fits, Bool.and_eq_true] at hplan
      exact ⟨hplan.1, hstack⟩
  | target | noTarget =>
      simp only [Plan.fits, Bool.and_eq_true] at hplan
      exact ⟨hplan.1.1, hstack⟩

theorem runs_fit {text : List Char} (h : ReflTransGen (Moves limit) (start text) s) : s.config.Fits := by
  induction h with
  | refl => exact start_fits text
  | tail _ hmoves ih => exact hmoves.leads.fits ih

/-- Where the frames go on, the next token is one that may be asked. -/
theorem stackReads.sees {depth : Nat} {stack : List Frame} (h : stackReads limit depth stack a z)
    (hend : Sees .expression [.kind .endOfText] z) : SeesAny (stackAsks true stack) a := by
  induction stack generalizing depth a with
  | nil =>
      obtain rfl : z = a := h
      exact sees_iff.mp hend
  | cons frame stack ih =>
      cases frame with
      | resume plan =>
          obtain ⟨b, hplan, hrest⟩ := h
          exact begins_before hplan (ih hrest)
      | leave => exact @ih a (depth - 1) h

/-! ## The way that is decided -/

theorem Sees.isAmong {mode : Mode} {wanted : List Terminal} {token : Token} (h : Sees mode wanted a)
    (hnext : a.next mode = .ok token) : token.isAmong wanted = true := by
  obtain ⟨token', hnext', hamong⟩ := h
  obtain rfl : token' = token := Except.ok.inj (hnext'.symm.trans hnext)
  exact hamong

theorem Takes.finish {mode : Mode} {wanted : List Terminal} {token : Token} (h : Takes mode wanted a b)
    (hnext : a.next mode = .ok token) : b = token.finish := by
  obtain ⟨token', hnext', -, rfl⟩ := h
  obtain rfl : token' = token := Except.ok.inj (hnext'.symm.trans hnext)
  rfl

/-- If the text goes on the other way, the next token is none of those that are wanted. -/
theorem other_way {n : Nat} {mode : Mode} {wanted : List Terminal} {no : Plan} {rest : List Look}
    (hexcludes : (no.asksBefore true rest).all (·.excludes mode wanted) = true) (hno : no.Reads n a b)
    (hrest : SeesAny rest b) : ∃ token, a.next mode = .ok token ∧ token.isAmong wanted = false := by
  obtain ⟨l, hl, hsees⟩ := begins_before hno hrest
  exact excludes_sees hsees (List.all_eq_true.mp hexcludes l hl)

/-- Where a target stands, no condition stands that may be followed by what follows a field. -/
theorem no_condition {n : Nat} {next : Plan} {rest noted : List Look} (htarget : Targets a z)
    (hfits : (Plan.target next).fits rest noted = true) (hnext : next.Reads n a b)
    (hrest : SeesAny rest b) : False := by
  simp only [Plan.fits, Bool.and_eq_true] at hfits
  obtain ⟨⟨-, hexcludes⟩, hboolean⟩ := hfits
  split at hboolean
  · obtain ⟨token, hnext', hamong⟩ := boolean_stays htarget hnext.1
    obtain ⟨l, hl, hsees⟩ := hrest
    obtain ⟨token', hother, hamong'⟩ := excludes_sees hsees (List.all_eq_true.mp hexcludes l hl)
    cases hnext'.symm.trans hother
    rw [joints, hamong'] at hamong
    cases hamong
  · cases hboolean

/-- **A move loses nothing that is left to read**, if it is read up to the end of the text. -/
theorem Moves.reads (h : Moves limit s s') (hfits : s.config.Fits) (hreads : s.config.Reads limit s.cursor z)
    (hend : Sees .expression [.kind .endOfText] z) : s'.config.Reads limit s'.cursor z := by
  obtain ⟨cursor, ahead, expected, depth, opener, plan, stack⟩ := s
  obtain ⟨hplan, -⟩ := hfits
  obtain ⟨b, hleft, hstack⟩ := hreads
  have hrest := hstack.sees hend
  simp only [config] at hplan hleft hstack hrest
  cases h with
  | resume hdone hframe =>
      cases hdone
      cases hframe
      cases hleft
      exact hstack
  | leave hdone hframe =>
      cases hdone
      cases hframe
      cases hleft
      exact ⟨_, rfl, hstack⟩
  | seen hlook hnext hamong =>
      cases hlook
      simp only [Plan.fits, Bool.and_eq_true] at hplan
      rcases hleft with ⟨-, hyes⟩ | hno
      · exact ⟨b, hyes, hstack⟩
      · obtain ⟨token, hnext', hother⟩ := other_way hplan.1.1.2 hno hrest
        cases hnext.symm.trans hnext'
        rw [hother] at hamong
        cases hamong
  | unseen hlook hnext hamong =>
      cases hlook
      rcases hleft with ⟨hsees, -⟩ | hno
      · rw [hsees.isAmong hnext] at hamong
        cases hamong
      · exact ⟨b, hno, hstack⟩
  | take htake hnext hamong | extend htake hnext hamong =>
      cases htake
      simp only [Plan.fits, Bool.and_eq_true] at hplan
      rcases hleft with ⟨c, htakes, hyes⟩ | hno
      · cases htakes.finish hnext
        exact ⟨b, hyes, hstack⟩
      · obtain ⟨token, hnext', hother⟩ := other_way hplan.2 hno hrest
        cases hnext.symm.trans hnext'
        rw [hother] at hamong
        cases hamong
  | miss htake hnext hamong | pass htake hnext hamong =>
      cases htake
      rcases hleft with ⟨c, htakes, -⟩ | hno
      · rw [htakes.sees.isAmong hnext] at hamong
        cases hamong
      · exact ⟨b, hno, hstack⟩
  | call hcall =>
      cases hcall
      obtain ⟨c, hrule, hnext⟩ := hleft
      simp only [Plan.fits, Bool.and_eq_true] at hplan
      refine ⟨c, Rule.plan_reads _ ?_ hrule, b, hnext, hstack⟩
      rintro rfl
      exact sees_iff.mpr ((begins_before hnext hrest).mono (subset_of_among hplan.1.2))
  | jump hjump =>
      cases hjump
      simp only [Plan.fits, Bool.and_eq_true] at hplan
      refine ⟨b, Rule.plan_reads _ ?_ hleft, hstack⟩
      rintro rfl
      exact sees_iff.mpr (hrest.mono (subset_of_among hplan.1))
  | opener hopener hnext =>
      cases hopener
      exact ⟨b, hleft, hstack⟩
  | enter henter hdepth =>
      cases henter
      obtain ⟨m, c, hlevel, hrule, hnext⟩ := hleft
      obtain rfl : m = limit - (depth + 1) := by
        simp only at hlevel hdepth
        omega
      simp only [Plan.fits, Bool.and_eq_true] at hplan
      refine ⟨c, Rule.plan_reads _ ?_ hrule, b, hnext, hstack⟩
      rintro rfl
      exact sees_iff.mpr ((begins_before hnext hrest).mono (subset_of_among hplan.1.2))
  | target htarget hscan =>
      cases htarget
      rcases hleft with ⟨c, d, hname, hassign, hnext⟩ | hno
      · cases hscan.symm.trans (target?_eq_some_iff.mpr (targets_iff_derives.mpr ⟨c, hname, hassign⟩))
        exact ⟨b, hnext, hstack⟩
      · exact (no_condition (target?_eq_some_iff.mp hscan) hplan hno hrest).elim
  | noTarget htarget hscan =>
      cases htarget
      rcases hleft with ⟨c, d, hname, hassign, -⟩ | hno
      · cases hscan.symm.trans (target?_eq_some_iff.mpr (targets_iff_derives.mpr ⟨c, hname, hassign⟩))
      · exact ⟨b, hno, hstack⟩

/-! ## Runs that cannot go on -/

/-- A run does not stop in front of what is left to read, unless nothing is left. -/
theorem Stops.accepts {verdict : Except SyntaxError Unit} (h : Stops limit s verdict)
    (hfits : s.config.Fits) (hreads : s.config.Reads limit s.cursor z)
    (hend : Sees .expression [.kind .endOfText] z) : verdict = .ok () := by
  obtain ⟨cursor, ahead, expected, depth, opener, plan, stack⟩ := s
  obtain ⟨hplan, -⟩ := hfits
  obtain ⟨b, hleft, hstack⟩ := hreads
  have hrest := hstack.sees hend
  simp only [config] at hplan hleft hstack hrest
  cases h with
  | accept => rfl
  | mismatch hreject =>
      cases hreject
      cases hleft
  | tooDeep henter hdepth =>
      cases henter
      obtain ⟨m, c, hlevel, -⟩ := hleft
      simp only at hlevel hdepth
      omega
  | @unrecognised mode e hmode hnext =>
      -- There is a token where something is left to read.
      suffices htoken : ∃ token, cursor.next mode = .ok token by
        obtain ⟨token, htoken⟩ := htoken
        cases hnext.symm.trans htoken
      cases plan with
      | reject => cases hleft
      | look m wanted yes no =>
          cases hmode
          simp only [Plan.fits, Bool.and_eq_true] at hplan
          rcases hleft with ⟨⟨token, htoken, -⟩, -⟩ | hno
          · exact ⟨token, htoken⟩
          · obtain ⟨token, htoken, -⟩ := other_way hplan.1.1.2 hno hrest
            exact ⟨token, htoken⟩
      | take m wanted yes no | extend m wanted yes no =>
          cases hmode
          simp only [Plan.fits, Bool.and_eq_true] at hplan
          rcases hleft with ⟨c, ⟨token, htoken, -⟩, -⟩ | hno
          · exact ⟨token, htoken⟩
          · obtain ⟨token, htoken, -⟩ := other_way hplan.2 hno hrest
            exact ⟨token, htoken⟩
      | opener next =>
          cases hmode
          simp only [Plan.fits, Bool.and_eq_true] at hplan
          obtain ⟨l, hl, hsees⟩ := begins_before hleft hrest
          obtain ⟨t, hin⟩ := Option.isSome_iff_exists.mp (List.all_eq_true.mp hplan.2 l hl)
          obtain ⟨token, htoken, -⟩ := inMode_sound hsees hin
          exact ⟨token, htoken⟩
      | done | call | jump | enter | target => cases hmode

/-- A text is accepted from where what is left to read goes up to its end. -/
theorem reads_of_runs {text : List Char} (h : ReflTransGen (Moves limit) (start text) s)
    (hreads : (start text).config.Reads limit (Cursor.start text) z)
    (hend : Sees .expression [.kind .endOfText] z) : s.config.Reads limit s.cursor z := by
  induction h with
  | refl => exact hreads
  | tail hruns hmoves ih => exact hmoves.reads (runs_fit hruns) ih hend

/-- What can be read is accepted. -/
theorem checkBy_of_reads {strategy : Strategy} {text : List Char}
    (hreads : Rule.statement.Reads strategy.limit (Cursor.start text) z) : checkBy strategy text = .ok () := by
  obtain ⟨s, hruns, hstops⟩ := checkBy_stops strategy text
  have hend : Sees .expression [.kind .endOfText] z := hreads.2 rfl
  exact hstops.accepts (runs_fit hruns) (reads_of_runs hruns (start_reads_iff.mpr hreads) hend) hend

/-! ## The language -/

/-- The texts that are accepted are those that the grammar derives with so much nesting. -/
theorem checkBy_iff_derives (strategy : Strategy) (text : List Char) :
    checkBy strategy text = .ok () ↔
      ∃ c, Derives strategy.limit (.part .statement) (Cursor.start text) c := by
  constructor
  · intro h
    obtain ⟨s, hruns, hstops⟩ := checkBy_stops strategy text
    rw [h] at hstops
    exact derives_of_accept hruns hstops
  · intro h
    obtain ⟨z, hreads⟩ := derives_statement_iff.mp h
    exact checkBy_of_reads hreads

/-- **The language of `check`.** A text is accepted if and only if the grammar derives it as a statement with
at most 100 levels of nesting. -/
theorem check_iff_derives (text : String) :
    check text = .ok () ↔ ∃ c, Derives 100 (.part .statement) (Cursor.start text.toList) c :=
  checkBy_iff_derives {} text.toList

end Esql.Syntax
