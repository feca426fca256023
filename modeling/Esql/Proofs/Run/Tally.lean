import Esql.Proofs.Run.Files
import Mathlib.Data.List.Induction

/-!
# `Proofs.Run.Tally` — an outcome adds up

A run stops at the first invalid input, but an outcome and the status lines make sense for any verdicts in any order.
`Tallies` says what the five fields of an outcome have to do with the verdicts that are recorded in it, and so with each
other: it is true of an outcome without verdicts, and each verdict keeps it (`Tallies.record`).

An invalid input is told in three ways: as the reason in an outcome, as the display of the fault, and in a status line.
`reports_tallied` puts them side by side.

## Contents
- `Host.reportAll`: some verdicts reported and recorded.
- `rejections`, and the invariant of an outcome.
- The lines of each channel.
- `reports_tallied`.
-/

namespace Esql.Report

/-- Something is wrong with the input. -/
def Verdict.isInvalid : Verdict → Bool
  | .invalid .. => true
  | .valid | .skipped => false

/-- What an outcome keeps of an input if it is invalid. -/
def rejection? : String × Verdict → Option Rejection
  | (input, .invalid line column message) => some ⟨input, Syntax.SyntaxError.sentence line column message⟩
  | (_, .valid) | (_, .skipped) => none

/-- The inputs that are invalid, in order. -/
def rejections (reports : List (String × Verdict)) : List Rejection := reports.filterMap rejection?

theorem isSome_rejection? (r : String × Verdict) : (rejection? r).isSome = r.2.isInvalid := by
  obtain ⟨input, verdict⟩ := r
  cases verdict <;> rfl

theorem rejection?_eq_none_iff (r : String × Verdict) : rejection? r = none ↔ r.2.isInvalid = false := by
  rw [← isSome_rejection?, Option.isSome_eq_false_iff, Option.isNone_iff_eq_none]

theorem rejections_append (reports reports' : List (String × Verdict)) :
    rejections (reports ++ reports') = rejections reports ++ rejections reports' := List.filterMap_append

theorem rejections_length (reports : List (String × Verdict)) :
    (rejections reports).length = reports.countP fun r => r.2.isInvalid := by
  induction reports with
  | nil => rfl
  | cons r reports ih =>
      rw [rejections, List.filterMap_cons, List.countP_cons, ← ih, ← isSome_rejection?]
      cases rejection? r with
      | none => rfl
      | some rejection => rfl

/-- Inputs in which nothing is wrong are not among those that are invalid. -/
theorem rejections_eq_nil {reports : List (String × Verdict)} (h : ∀ r ∈ reports, r.2.isInvalid = false) :
    rejections reports = [] :=
  List.filterMap_eq_nil_iff.mpr fun r hr => (rejection?_eq_none_iff r).mpr (h r hr)

/-! ## The invariant of an outcome -/

/-- The outcome has counted these verdicts, and keeps the first of those that are invalid. -/
structure Tallies (outcome : Outcome) (reports : List (String × Verdict)) : Prop where
  checked : outcome.checked = reports.length
  valid : outcome.valid = reports.countP fun r => r.2 = .valid
  skipped : outcome.skipped = reports.countP fun r => r.2 = .skipped
  failed : outcome.overallFailed = reports.any fun r => r.2.isInvalid
  first : outcome.firstFailure = (rejections reports).head?

theorem tallies_nothing : Tallies {} [] where
  checked := rfl
  valid := rfl
  skipped := rfl
  failed := rfl
  first := rfl

section
variable (outcome : Outcome) (input : String) (verdict : Verdict)

theorem record_checked : (outcome.record input verdict).checked = outcome.checked + 1 := by
  cases verdict <;> rfl

theorem record_valid :
    (outcome.record input verdict).valid = outcome.valid + [(input, verdict)].countP fun r => r.2 = .valid := by
  cases verdict <;> rfl

theorem record_skipped :
    (outcome.record input verdict).skipped = outcome.skipped + [(input, verdict)].countP fun r => r.2 = .skipped := by
  cases verdict <;> rfl

theorem record_failed :
    (outcome.record input verdict).overallFailed = (outcome.overallFailed || verdict.isInvalid) := by
  cases verdict with
  | valid | skipped => exact (Bool.or_false _).symm
  | invalid line column message => exact (Bool.or_true _).symm

/-- A rejection that is kept already stays. -/
theorem record_firstFailure :
    (outcome.record input verdict).firstFailure = outcome.firstFailure.or (rejections [(input, verdict)]).head? := by
  cases verdict with
  | valid | skipped => exact Option.or_none.symm
  | invalid line column message =>
      show (outcome.firstFailure <|> some _) = _
      rw [Option.orElse_eq_orElse, Option.orElse_eq_or]
      rfl

end

variable {outcome : Outcome} {reports : List (String × Verdict)}

/-- One more verdict: it is counted, and it is kept only if it is the first that is invalid. -/
theorem Tallies.record (h : Tallies outcome reports) (input : String) (verdict : Verdict) :
    Tallies (outcome.record input verdict) (reports ++ [(input, verdict)]) where
  checked := by rw [record_checked, h.checked, List.length_append, List.length_singleton]
  valid := by rw [record_valid, h.valid, List.countP_append]
  skipped := by rw [record_skipped, h.skipped, List.countP_append]
  failed := by rw [record_failed, h.failed, List.any_append, List.any_cons, List.any_nil, Bool.or_false]
  first := by rw [record_firstFailure, h.first, rejections_append, List.head?_append]

/-- Whatever is found about an input is counted once. -/
theorem length_eq_counts (reports : List (String × Verdict)) :
    reports.length = (reports.countP fun r => r.2 = .valid) + (reports.countP fun r => r.2 = .skipped) +
      reports.countP fun r => r.2.isInvalid := by
  induction reports with
  | nil => rfl
  | cons r reports ih =>
      obtain ⟨input, verdict⟩ := r
      rw [List.length_cons, ih, List.countP_cons, List.countP_cons, List.countP_cons]
      cases verdict <;> simp [Verdict.isInvalid] <;> omega

/-- What is neither valid nor skipped is invalid. -/
theorem Tallies.adds (h : Tallies outcome reports) :
    outcome.valid + outcome.skipped ≤ outcome.checked ∧
      outcome.checked - outcome.valid - outcome.skipped = reports.countP fun r => r.2.isInvalid := by
  have hcounts := length_eq_counts reports
  rw [h.checked, h.valid, h.skipped]
  omega

/-- All signs of an invalid input agree. -/
theorem Tallies.signs (h : Tallies outcome reports) :
    (outcome.overallFailed = true ↔ 0 < reports.countP fun r => r.2.isInvalid) ∧
      (outcome.firstFailure.isSome = true ↔ 0 < reports.countP fun r => r.2.isInvalid) ∧
      (outcome.exitStatus = .validationFailure ↔ 0 < reports.countP fun r => r.2.isInvalid) := by
  have hfailed : outcome.overallFailed = true ↔ 0 < reports.countP fun r => r.2.isInvalid := by
    rw [h.failed, List.any_eq_true, List.countP_pos_iff]
  refine ⟨hfailed, ?_, ?_⟩
  · rw [h.first, ← rejections_length]
    cases rejections reports <;> simp
  · rw [← hfailed, Outcome.exitStatus]
    cases outcome.overallFailed <;> decide

end Esql.Report

namespace Esql

open Esql.Report (Channel Outcome Rejection StatusLine Tallies Verdict rejection? rejections statusLine)
open Esql.Syntax (SyntaxError check)

/-! ## Verdicts that are recorded -/

theorem recordAll_append (outcome : Outcome) (reports reports' : List (String × Verdict)) :
    recordAll outcome (reports ++ reports') = recordAll (recordAll outcome reports) reports' := List.foldl_append

/-- By induction on the verdicts, the last one first: an outcome adds up. -/
theorem tallies_recordAll (reports : List (String × Verdict)) : Tallies (recordAll {} reports) reports := by
  induction reports using List.reverseRecOn with
  | nil => exact Report.tallies_nothing
  | append_singleton reports r ih =>
      rw [recordAll_append]
      exact ih.record r.1 r.2

/-- The first input that is invalid is the one that is kept, whatever comes behind it. -/
theorem firstFailure_recordAll {before behind : List (String × Verdict)} {r : String × Verdict} {rejection : Rejection}
    (hbefore : ∀ r ∈ before, r.2.isInvalid = false) (hr : rejection? r = some rejection) :
    (recordAll {} (before ++ r :: behind)).firstFailure = some rejection := by
  rw [(tallies_recordAll _).first, Report.rejections_append, Report.rejections_eq_nil hbefore, List.nil_append,
    rejections, List.filterMap_cons, hr]
  rfl

/-- More verdicts do not replace a rejection. -/
theorem firstFailure_kept {reports : List (String × Verdict)} {rejection : Rejection}
    (h : (recordAll {} reports).firstFailure = some rejection) (more : List (String × Verdict)) :
    (recordAll {} (reports ++ more)).firstFailure = some rejection := by
  rw [(tallies_recordAll _).first] at h
  rw [(tallies_recordAll _).first, Report.rejections_append, List.head?_append, h]
  rfl

/-! ## Verdicts that are reported -/

/-- Report some verdicts and record each of them. -/
def Host.reportAll {m : Type → Type} [Monad m] (host : Host m) (config : Config) :
    Outcome → List (String × Verdict) → ExceptT Failure m Outcome
  | outcome, [] => return outcome
  | outcome, (input, verdict) :: reports => do
    host.report config input verdict
    host.reportAll config (outcome.record input verdict) reports

variable {session : Session} {config : Config}

/-- By induction on the verdicts: each is a line more in the session, and one verdict more in the outcome. -/
theorem reportAll_after (hsinks : session.Unbounded) (files : FileSource) (config : Config) (outcome : Outcome)
    (reports : List (String × Verdict)) :
    ((Session.host files).reportAll config outcome reports).run.run session =
      (.ok (recordAll outcome reports), session.after [] (statusLines config reports)) := by
  induction reports generalizing session outcome with
  | nil =>
      rw [statusLines, List.map_nil, Session.after_nil]
      rfl
  | cons r reports ih =>
      obtain ⟨input, verdict⟩ := r
      rw [Host.reportAll, run_bind, report_run hsinks]
      dsimp only
      rw [ih (hsinks.after _ _), Session.after_after]
      rfl

/-- The first input that is invalid comes first among all of them. -/
theorem filter_invalid {before later : List (String × Verdict)} {r : String × Verdict}
    (hbefore : ∀ r ∈ before, r.2.isInvalid = false) (hr : r.2.isInvalid = true) :
    (before ++ r :: later).filter (fun r => r.2.isInvalid) = r :: later.filter fun r => r.2.isInvalid := by
  have hnone : before.filter (fun r => r.2.isInvalid) = [] := by
    rw [List.filter_eq_nil_iff]
    intro r hr
    rw [hbefore r hr]
    exact Bool.false_ne_true
  rw [List.filter_append, hnone, List.nil_append]
  exact List.filter_cons_of_pos hr

/-- The lines of some verdicts in plain words. -/
def plainLines (reports : List (String × Verdict)) : String :=
  String.join (reports.map fun r => (StatusLine.plain r.1 r.2).text)

/-- In plain words an invalid input goes to the error channel and all others to the output channel. -/
theorem channel_plain (input : String) (verdict : Verdict) :
    (StatusLine.plain input verdict).channel = if verdict.isInvalid then .error else .output := by
  cases verdict <;> rfl

/-- The lines of a channel are those of the verdicts that go there, in order. -/
theorem textFor_plain {channel : Channel} (goes : Verdict → Bool) (hstyle : config.style = .text)
    (hgoes : ∀ verdict : Verdict,
      (if verdict.isInvalid then Channel.error else .output) = channel ↔ goes verdict = true)
    (reports : List (String × Verdict)) :
    textFor channel (statusLines config reports) = plainLines (reports.filter fun r => goes r.2) := by
  have hline : ∀ r : String × Verdict,
      decide ((statusLine config.style r.1 r.2).channel = channel) = goes r.2 := by
    intro r
    rw [hstyle, Bool.eq_iff_iff, decide_eq_true_iff, ← hgoes, ← channel_plain r.1]
    exact Iff.rfl
  have hselected : (statusLines config reports).filter (fun line => line.channel = channel) =
      (reports.filter fun r => goes r.2).map fun r => statusLine config.style r.1 r.2 := by
    rw [statusLines, List.filter_map]
    exact congrArg _ (List.filter_congr fun r _ => hline r)
  rw [textFor, hselected, List.map_map, hstyle]
  rfl

/-- In plain words the output channel gets the lines of inputs that are not invalid, and the error channel those of the
    invalid ones. -/
theorem kept_plain (session : Session) (hstyle : config.style = .text) (reports : List (String × Verdict)) :
    (session.after [] (statusLines config reports)).output.kept =
        session.output.kept ++ (plainLines (reports.filter fun r => !r.2.isInvalid)).toUTF8 ∧
      (session.after [] (statusLines config reports)).error.kept =
        session.error.kept ++ (plainLines (reports.filter fun r => r.2.isInvalid)).toUTF8 := by
  have houtput : textFor .output (statusLines config reports) =
      plainLines (reports.filter fun r => !r.2.isInvalid) := by
    refine textFor_plain (fun verdict => !verdict.isInvalid) hstyle (fun verdict => ?_) reports
    cases verdict.isInvalid <;> decide
  have herror : textFor .error (statusLines config reports) = plainLines (reports.filter fun r => r.2.isInvalid) := by
    refine textFor_plain Verdict.isInvalid hstyle (fun verdict => ?_) reports
    cases verdict.isInvalid <;> decide
  rw [← houtput, ← herror]
  exact ⟨rfl, rfl⟩

/-- **An outcome adds up.** Some verdicts, any of them invalid and in any order, are reported and recorded one after the
    other, and no sink refuses a line.

    All inputs are counted, with those that are valid and those that are skipped, and the others are the invalid ones.
    There are some just if the outcome is a failure, just if it keeps a rejection, and just if its class is that of a
    refused statement. The rejection is that of the first invalid input, and verdicts that come later do not replace
    it. If that input is a statement that the check refuses, the reason is the display of the fault, and in plain words
    its line on the error channel is its name, the place and this display. All the lines of inputs that are not invalid
    are then on the output channel, and those of the invalid ones on the error channel, in order. -/
theorem reports_tallied {session : Session} (hsinks : session.Unbounded) (files : FileSource) (config : Config)
    (reports : List (String × Verdict)) :
    let outcome := recordAll {} reports
    let behind := session.after [] (statusLines config reports)
    let invalid := reports.countP fun r => r.2.isInvalid
    ((Session.host files).reportAll config {} reports).run.run session = (.ok outcome, behind) ∧
    (outcome.checked = reports.length ∧ (outcome.valid = reports.countP fun r => r.2 = .valid) ∧
      (outcome.skipped = reports.countP fun r => r.2 = .skipped) ∧ outcome.valid + outcome.skipped ≤ outcome.checked ∧
      outcome.checked - outcome.valid - outcome.skipped = invalid) ∧
    ((outcome.overallFailed = true ↔ 0 < invalid) ∧ (outcome.firstFailure.isSome = true ↔ 0 < invalid) ∧
      (outcome.exitStatus = .validationFailure ↔ 0 < invalid)) ∧
    (∀ rejection, outcome.firstFailure = some rejection →
      ∀ more, (recordAll {} (reports ++ more)).firstFailure = some rejection) ∧
    (∀ before input line column message later, reports = before ++ (input, .invalid line column message) :: later →
      (∀ r ∈ before, r.2.isInvalid = false) →
      outcome.firstFailure = some ⟨input, SyntaxError.sentence line column message⟩) ∧
    (∀ before input text e later, reports = before ++ (input, .ofStatement text) :: later →
      (∀ r ∈ before, r.2.isInvalid = false) → check text = .error e →
      outcome.firstFailure = some ⟨input, e.display⟩ ∧
        (config.style = .text → ∃ rest, behind.error.kept = session.error.kept ++
          (input ++ ":" ++ toString e.position.line ++ ":" ++ toString e.position.column ++ ": ✗ " ++ e.display ++ "\n"
            ++ rest).toUTF8)) ∧
    (config.style = .text →
      behind.output.kept = session.output.kept ++ (plainLines (reports.filter fun r => !r.2.isInvalid)).toUTF8 ∧
      behind.error.kept = session.error.kept ++ (plainLines (reports.filter fun r => r.2.isInvalid)).toUTF8) := by
  intro outcome behind invalid
  have htally : Tallies outcome reports := tallies_recordAll reports
  refine ⟨reportAll_after hsinks files config {} reports, ⟨htally.checked, htally.valid, htally.skipped, htally.adds⟩,
    htally.signs, fun rejection h => firstFailure_kept h, ?_, ?_, fun hstyle => kept_plain session hstyle reports⟩
  · rintro before input line column message later rfl hbefore
    exact firstFailure_recordAll hbefore rfl
  · rintro before input text e later rfl hbefore hcheck
    have hverdict : Verdict.ofStatement text = .invalid e.position.line e.position.column e.message := by
      rw [Verdict.ofStatement, hcheck]
      rfl
    constructor
    · refine firstFailure_recordAll hbefore ?_
      rw [hverdict]
      rfl
    · intro hstyle
      have hfirst : plainLines ((before ++ (input, .ofStatement text) :: later).filter fun r => r.2.isInvalid) =
          (StatusLine.plain input (.ofStatement text)).text ++ plainLines (later.filter fun r => r.2.isInvalid) := by
        rw [filter_invalid hbefore (by rw [hverdict]; rfl), plainLines, List.map_cons, String.join_cons]
        rfl
      have hline : (StatusLine.plain input (.ofStatement text)).text =
          input ++ ":" ++ toString e.position.line ++ ":" ++ toString e.position.column ++ ": ✗ " ++ e.display ++
            "\n" := by
        rw [hverdict]
        rfl
      refine ⟨plainLines (later.filter fun r => r.2.isInvalid), ?_⟩
      rw [← hline, ← hfirst]
      exact (kept_plain session hstyle _).2

/-- Two invalid inputs, with others before, between and behind them: the first is kept, and its line is the first on the
    error channel. -/
theorem reports_tallied_twice :
    let session : Session := { stdin := ⟨[], none⟩ }
    let files : FileSource := ⟨fun _ => .ok [], fun _ => .ok .empty⟩
    let reports := [("a", .skipped), ("b", .ofStatement "show"), ("c", .valid), ("d", .invalid 2 3 "no"), ("e", .valid)]
    let outcome := recordAll {} reports
    let reason := "Syntax error at line 1:4 - mismatched input '<EOF>' expecting 'info'."
    session.Unbounded ∧ check "show" = .error ⟨⟨1, 4⟩, .mismatched "<EOF>" [.word .INFO]⟩ ∧
      outcome.firstFailure = some ⟨"b", reason⟩ ∧ outcome.checked - outcome.valid - outcome.skipped = 2 ∧
      (((Session.host files).reportAll {} {} reports).run.run session).1 = .ok outcome ∧
      ∃ rest, (((Session.host files).reportAll {} {} reports).run.run session).2.error.kept =
        ByteArray.empty ++
          ("b" ++ ":" ++ toString 1 ++ ":" ++ toString 4 ++ ": ✗ " ++ reason ++ "\n" ++ rest).toUTF8 := by
  intro session files reports outcome reason
  have hsinks : session.Unbounded := ⟨rfl, rfl⟩
  have hcheck : check "show" = .error ⟨⟨1, 4⟩, .mismatched "<EOF>" [.word .INFO]⟩ := by rfl
  have hreason : SyntaxError.display ⟨⟨1, 4⟩, .mismatched "<EOF>" [.word .INFO]⟩ = reason := by decide
  obtain ⟨hrun, ⟨-, -, -, -, hinvalid⟩, -, -, -, hfirst, -⟩ := reports_tallied hsinks files {} reports
  obtain ⟨hfailure, herror⟩ := hfirst [("a", .skipped)] "b" "show" _ _ rfl (by decide) hcheck
  rw [hreason] at hfailure herror
  have hcount : (reports.countP fun r => r.2.isInvalid) = 2 := by
    simp only [reports, Verdict.ofStatement, hcheck]
    rfl
  rw [hrun]
  exact ⟨hsinks, hcheck, hfailure, hinvalid.trans hcount, rfl, herror rfl⟩

end Esql
