import Esql.Proofs.Recognizer.Completion
import Esql.Proofs.Recognizer.Splice

/-!
# `Proofs.Recognizer.Viable` — a fault is never reported too late

The text in front of a fault can be completed: whatever was read there is the beginning of a statement
(`resumable_at_fault`). In each state of a run, what was read can go on in another way (`Traced`), and what is
wanted can be written down (`Completable`).

The exception is a level of nesting that may not be entered. The opener has been read there, and nothing that
begins with it can be completed; but the fault is reported at the opener, in front of which something else
could stand. So the place of the opener is followed through the run (`Viable.opener`).
-/

namespace Esql.Syntax

open State Look
open Esql.Text (Position)
open Relation (ReflTransGen)

variable {limit : Nat} {s s' : State} {a b z : Cursor} {text v w : List Char}
  {looks : List (Mode × List Terminal)}

/-! ## Places in a text -/

/-- The place `b` is that of `a`, or it lies behind `a` in the same text. -/
def Cursor.Follows (a b : Cursor) : Prop :=
  ∃ q, a.rest = q ++ b.rest ∧ b.position = a.position.after q

theorem Cursor.follows_refl (a : Cursor) : a.Follows a := ⟨[], rfl, rfl⟩

theorem Cursor.Follows.trans (h : a.Follows b) (h' : b.Follows z) : a.Follows z := by
  obtain ⟨q, hrest, hplace⟩ := h
  obtain ⟨r, hrest', hplace'⟩ := h'
  exact ⟨q ++ r, by rw [hrest, hrest', List.append_assoc], by rw [hplace', hplace, Position.after_append]⟩

/-- The place behind a token follows the place from which it was cut off, and so does the place of the token. -/
theorem follows_token {mode : Mode} {t : Token} (h : a.next mode = .ok t) :
    a.Follows ⟨t.start, t.text ++ t.rest⟩ ∧ a.Follows t.finish := by
  obtain ⟨gap, hgap⟩ := next_ok h
  refine ⟨⟨gap, hgap.text, hgap.start⟩, gap ++ t.text, ?_, ?_⟩
  · rw [hgap.text, List.append_assoc]
    rfl
  · rw [Token.finish, hgap.start, Position.after_append]

theorem Takes.follows {mode : Mode} {wanted : List Terminal} (h : Takes mode wanted a b) : a.Follows b := by
  obtain ⟨t, hnext, -, rfl⟩ := h
  exact (follows_token hnext).2

theorem Targets.follows (h : Targets a b) : a.Follows b := by
  induction h with
  | last hname hassign => exact hname.follows.trans hassign.follows
  | more hname hdot _ ih => exact (hname.follows.trans hdot.follows).trans ih

/-- The place is one of the text. -/
def Cursor.IsIn (text : List Char) (here : Cursor) : Prop :=
  ∃ q, text = q ++ here.rest ∧ here.position = Position.start.after q

theorem start_isIn (text : List Char) : (Cursor.start text).IsIn text := ⟨[], rfl, rfl⟩

theorem Cursor.Follows.isIn (h : a.Follows b) (ha : a.IsIn text) : b.IsIn text := by
  have hstart : (Cursor.start text).Follows a := ha
  exact hstart.trans h

/-- The text up to a place, followed by `w`, is a statement. -/
def Resumes (limit : Nat) (text : List Char) (place : Position) (w : List Char) : Prop :=
  ∃ p v, text = p ++ v ∧ Position.start.after p = place ∧
    ∃ z, Rule.statement.Reads limit (Cursor.start (p ++ w)) z

/-- A text that is cut behind the trivia at a place goes on there as a state could go on. -/
theorem Traced.resumes (h : Traced limit text looks s) (hin : s.cursor.IsIn text) (hw : Fresh w)
    (hreads : ∀ a, (∀ mode, a.next mode = (Cursor.mk s.cursor.beyond w).next mode) →
      (∀ p ∈ looks, Sees p.1 p.2 a) ∧ ∃ z, s.config.Reads limit a z) :
    Resumes limit text s.cursor.beyond w := by
  obtain ⟨gap, v, hrest, hbeyond, hslash, hgap⟩ := exists_gap s.cursor
  obtain ⟨q, htext, hplace⟩ := hin
  have hnext : ∀ mode, (Cursor.mk s.cursor.position (gap ++ w)).next mode
      = (Cursor.mk s.cursor.beyond w).next mode := by
    intro mode
    unfold Cursor.next
    rw [hgap w hw]
  obtain ⟨hlooks, z, hleft⟩ := hreads _ hnext
  obtain ⟨a₀, ⟨u, htext', rfl, -⟩, hstart⟩ := h.back v w _ z (spaced_fresh hw)
    ⟨gap, hrest, rfl, fun hone => absurd hone hslash⟩ hlooks hleft
  have hparts : q ++ gap ++ v = u ++ v := by
    rw [List.append_assoc, ← hrest, ← htext]
    exact htext'
  obtain rfl : q ++ gap = u := List.append_cancel_right hparts
  refine ⟨q ++ gap, v, htext', ?_, z, start_reads_iff.mp hstart⟩
  rw [Position.after_append, ← hplace, hbeyond]

/-- The text up to a place can be completed behind a new line. -/
def CanResume (limit : Nat) (text : List Char) (place : Position) : Prop :=
  ∃ x, Resumes limit text place ('\n' :: x)

/-- Where what is left to read can be completed, the text can. -/
theorem Traced.canResume (h : Traced limit text [] s) (hin : s.cursor.IsIn text)
    (hcompletable : Completable [] (s.config.Reads limit)) : CanResume limit text s.cursor.beyond := by
  obtain ⟨looks, hsampled, hreads⟩ := hcompletable
  refine ⟨spell looks, h.resumes hin (.inr rfl) fun a hnext => ⟨fun _ hp => absurd hp List.not_mem_nil, ?_⟩⟩
  obtain ⟨z, hwritten, hend⟩ := written_congr hnext (written_spell hsampled (by decide) _)
  exact ⟨z, hreads a z hwritten hend⟩

/-! ## Runs -/

/-- What a run has read can be completed, and so can what it has read up to the opener that is remembered. -/
structure Viable (limit : Nat) (text : List Char) (s : State) : Prop where
  isIn : s.cursor.IsIn text
  traced : ∃ looks, Traced limit text looks s
  goes : CanResume limit text s.cursor.beyond ∨ (s.plan.isEnter = true ∧ limit ≤ s.depth)
  opener : s.plan.guarded = true ∨ CanResume limit text s.opener.start

theorem Rule.guarded (rule : Rule) : rule.plan.guarded = true := by
  cases rule <;> decide

/-- What is true of each opener when it is remembered is true of the one that may be blamed. -/
theorem Moves.blames {P : Token → Prop} (h : Moves limit s s') (hopen : s.Open)
    (hs : s.plan.guarded = true ∨ P s.opener)
    (hnew : ∀ next t, s.plan = .opener next → s.cursor.next .expression = .ok t → P t) :
    s'.plan.guarded = true ∨ P s'.opener := by
  have hstack := hopen.stack
  cases h with
  | resume _ hframe =>
      rw [hframe] at hstack
      exact .inl hstack.2.1
  | leave => exact .inl rfl
  | call | jump | enter => exact .inl (Rule.guarded _)
  | opener hplan hnext => exact .inr (hnew _ _ hplan hnext)
  | target hplan | noTarget hplan =>
      rw [hplan] at hs
      exact hs
  | seen hplan | unseen hplan | take hplan | miss hplan | extend hplan | pass hplan =>
      rw [hplan] at hs
      simp only [Plan.guarded, Bool.and_eq_true] at hs
      exact hs.imp_left (by tauto)

theorem start_viable (limit : Nat) (text : List Char) : Viable limit text (start text) := by
  have htraced := start_traced limit text
  refine ⟨start_isIn text, ⟨[], htraced⟩, .inl ?_, .inl (Rule.guarded .statement)⟩
  refine htraced.canResume (start_isIn text) (@config_completable limit _ false (fun _ => rfl) trivial ?_ ?_)
  · show Rule.statement.plan.completes false = true
    decide +kernel
  · exact fun h => absurd h Bool.false_ne_true

/-- Behind a token that was taken, the text can be completed, unless a level has to be entered that may not be
entered. -/
theorem goes_behind (htraced : Traced limit text [] s) (hin : s.cursor.IsIn text) (hopen : s.Open)
    (hplan : s.plan.completes false = true ∨ (s.plan.isEnter = true ∧ s.plan.completes true = true)) :
    CanResume limit text s.cursor.beyond ∨ (s.plan.isEnter = true ∧ limit ≤ s.depth) := by
  rcases hplan with hplain | ⟨henter, hdeep⟩
  · refine .inl (htraced.canResume hin (config_completable hopen.last hopen.stack hplain ?_))
    exact fun h => absurd h Bool.false_ne_true
  · by_cases hdepth : s.depth < limit
    · exact .inl (htraced.canResume hin (config_completable hopen.last hopen.stack hdeep fun _ => hdepth))
    · exact .inr ⟨henter, Nat.le_of_not_lt hdepth⟩

theorem behind_ne (h : b.rest.length < a.rest.length) : b ≠ a := by
  rintro rfl
  exact Nat.lt_irrefl _ h

/-- **Every state of a run can be completed.** -/
theorem Moves.viable (h : Moves limit s s') (hfits : s.config.Fits) (hall : s.All Plan.sparesEnd) (hopen : s.Open)
    (hs : Viable limit text s) : Viable limit text s' := by
  obtain ⟨hin, ⟨looks, htraced⟩, hgoes, hopener⟩ := hs
  obtain ⟨looks', htraced', hlooks⟩ := h.traced hfits hall htraced
  have hopen' := h.open hopen
  have hgoesOn := Plan.all_self hopen.all.plan
  have hspares := Plan.all_self hall.plan
  -- A plan that is about to enter a level goes nowhere else.
  have hstill : s.plan.isEnter = false → s'.cursor = s.cursor →
      CanResume limit text s'.cursor.beyond ∨ (s'.plan.isEnter = true ∧ limit ≤ s'.depth) := by
    intro henter hcursor
    rw [hcursor]
    rcases hgoes with hgoes | ⟨h, -⟩
    · exact .inl hgoes
    · rw [henter] at h
      cases h
  have hblames : s'.plan.guarded = true ∨ CanResume limit text s'.opener.start := by
    refine h.blames (P := fun t => CanResume limit text t.start) hopen hopener fun next t hplan hnext => ?_
    obtain ⟨gap, hgap⟩ := next_ok hnext
    rcases hgoes with hgoes | ⟨henter, -⟩
    · rw [hgap.beyond]
      exact hgoes
    · rw [hplan] at henter
      cases henter
  cases h with
  | resume hplan | leave hplan | seen hplan | unseen hplan | miss hplan | pass hplan | call hplan | jump hplan
  | opener hplan | noTarget hplan =>
      exact ⟨hin, ⟨looks', htraced'⟩, hstill (by rw [hplan]; rfl) rfl, hblames⟩
  | take hplan hnext hamong | extend hplan hnext hamong =>
      simp only [hplan, Plan.sparesEnd, Bool.not_eq_true'] at hspares
      simp only [hplan, Plan.goesOn, Bool.or_eq_true, Bool.and_eq_true] at hgoesOn
      have hlt := finish_length_lt hnext (text_ne_nil hnext hamong hspares)
      have hin' := (follows_token hnext).2.isIn hin
      obtain rfl : looks' = [] := hlooks.resolve_right (behind_ne hlt)
      exact ⟨hin', ⟨[], htraced'⟩, goes_behind htraced' hin' hopen' hgoesOn, hblames⟩
  | enter hplan hdepth =>
      refine ⟨hin, ⟨looks', htraced'⟩, .inl (hgoes.resolve_right ?_), hblames⟩
      rintro ⟨-, hle⟩
      exact absurd hdepth (Nat.not_lt.mpr hle)
  | target hplan htarget =>
      simp only [hplan, Plan.goesOn] at hgoesOn
      have htargets := target?_eq_some_iff.mp htarget
      have hin' := htargets.follows.isIn hin
      obtain rfl : looks' = [] := hlooks.resolve_right (behind_ne htargets.length_lt)
      exact ⟨hin', ⟨[], htraced'⟩, goes_behind htraced' hin' hopen' (.inl hgoesOn), hblames⟩

theorem runs_viable (h : ReflTransGen (Moves limit) (start text) s) : Viable limit text s := by
  induction h with
  | refl => exact start_viable limit text
  | tail hruns hmoves ih =>
      exact hmoves.viable (runs_fit hruns) (runs_all Rule.spares_end hruns) (runs_open hruns) ih

/-- Where a run stops at a fault, the text in front of the fault can be completed. -/
theorem Stops.canResume {e : SyntaxError} (h : Stops limit s (.error e)) (hs : Viable limit text s) :
    CanResume limit text e.position := by
  have hgoes : ∀ mode, s.plan.mode? = some mode → CanResume limit text s.cursor.beyond := by
    intro mode hmode
    refine hs.goes.resolve_right ?_
    rintro ⟨henter, -⟩
    cases hplan : s.plan with
    | enter => simp [hplan, Plan.mode?] at hmode
    | _ => simp [hplan, Plan.isEnter] at henter
  cases h with
  | unrecognised hmode hnext =>
      rw [next_error hnext]
      exact hgoes _ hmode
  | mismatch hplan hnext =>
      obtain ⟨gap, hgap⟩ := next_ok hnext
      show CanResume limit text (Token.start _)
      rw [hgap.beyond]
      exact hgoes _ (by rw [hplan]; rfl)
  | tooDeep hplan hdepth =>
      refine hs.opener.resolve_left ?_
      rw [hplan]
      exact Bool.false_ne_true

/-! ## Texts up to a place -/

/-- The part of a text in front of a place. -/
structure UpTo (text : String) (place : Position) (p : String) : Prop where
  begins : p.toList <+: text.toList
  ends : Position.start.after p.toList = place

theorem after_in_line {cs : List Char} (h : '\n' ∉ cs) (p : Position) :
    p.after cs = ⟨p.line, p.column + cs.length⟩ := by
  induction cs generalizing p with
  | nil => rfl
  | cons c cs ih =>
      rw [List.mem_cons, not_or] at h
      obtain ⟨hc, hcs⟩ := h
      rw [Position.after_cons, ih hcs, Position.advance, if_neg (Ne.symm hc)]
      simp only [List.length_cons, Position.mk.injEq, true_and]
      omega

/-- Only the empty text ends where it starts. -/
theorem eq_nil_of_after {cs : List Char} {p : Position} (h : p.after cs = p) : cs = [] := by
  have hline := Position.line_after p cs
  rw [h] at hline
  have hnone : '\n' ∉ cs := List.count_eq_zero.mp (by omega)
  rw [after_in_line hnone] at h
  have hcolumn := congrArg Position.column h
  simp only at hcolumn
  exact List.eq_nil_of_length_eq_zero (by omega)

/-- No two prefixes of a text end at the same place. -/
theorem eq_of_after {p q : List Char} (hp : p <+: text) (hq : q <+: text) {place : Position}
    (h : place.after p = place.after q) : p = q := by
  rcases List.prefix_or_prefix_of_prefix hp hq with ⟨d, rfl⟩ | ⟨d, rfl⟩
  · rw [Position.after_append] at h
    rw [eq_nil_of_after h.symm, List.append_nil]
  · rw [Position.after_append] at h
    rw [eq_nil_of_after h, List.append_nil]

theorem upTo_of_append {t : String} {place : Position} {p v : List Char} (htext : t.toList = p ++ v)
    (hplace : Position.start.after p = place) : UpTo t place (String.ofList p) := by
  constructor
  · rw [String.toList_ofList, htext]
    exact List.prefix_append p v
  · rw [String.toList_ofList, hplace]

theorem UpTo.unique {t p q : String} {place : Position} (hp : UpTo t place p) (hq : UpTo t place q) : q = p :=
  String.toList_inj.mp (eq_of_after hq.begins hp.begins (hq.ends.trans hp.ends.symm))

/-- **No fault is reported too late.** There is a text in front of the place of a fault, only one, and behind
a new line it goes on as a statement in some way. -/
theorem resumable_at_fault {t : String} {e : SyntaxError} (h : check t = .error e) :
    ∃ p, UpTo t e.position p ∧ (∀ q, UpTo t e.position q → q = p) ∧
      ∃ s, check (p ++ "\n" ++ s) = .ok () := by
  obtain ⟨s, hruns, hstops⟩ := checkBy_stops {} t.toList
  rw [show checkBy {} t.toList = .error e from h] at hstops
  obtain ⟨x, p, v, htext, hplace, z, hreads⟩ := hstops.canResume (runs_viable hruns)
  have hp : UpTo t e.position (String.ofList p) := upTo_of_append htext hplace
  refine ⟨String.ofList p, hp, fun q hq => hp.unique hq, String.ofList x, ?_⟩
  refine checkBy_of_reads (z := z) ?_
  simpa using hreads

theorem resumable_at_fault_of_show :
    check "show" = .error ⟨⟨1, 4⟩, .mismatched "<EOF>" [.word .INFO]⟩ ∧ ∃ p, UpTo "show" ⟨1, 4⟩ p ∧
      (∀ q, UpTo "show" ⟨1, 4⟩ q → q = p) ∧ ∃ s, check (p ++ "\n" ++ s) = .ok () := by
  have h : check "show" = .error ⟨⟨1, 4⟩, .mismatched "<EOF>" [.word .INFO]⟩ := by rfl
  exact ⟨h, resumable_at_fault h⟩

end Esql.Syntax
