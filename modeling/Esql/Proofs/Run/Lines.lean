import Esql.Proofs.Recognizer.Located
import Esql.Proofs.Report.ObjectLine
import Esql.Proofs.Run.Acts
import Mathlib.Algebra.BigOperators.Group.List.Basic

/-!
# `Proofs.Run.Lines` — how many lines a run writes

A status line ends with a line feed. That it is a single line is not said by this: a name may hold line feeds, and the
message of a fault quotes the text where it stands, which may hold some too. An object escapes both; plain words show
both as they are. `run_lineFeeds` counts: a run that ends with an outcome has written one line for each input that it has
processed, and in plain words one more for each line feed in a name or in a quoted piece.

For the count, the outcome and the lines must be traced back to the same inputs. `Reports` is the property of a program
that says so; it is composed along the program like the acts of the program are.

## Contents
- Line feeds in texts, messages and status lines.
- `Silent` and `Reports`, and each part of a run.
- `run_lineFeeds`, and an input with two lines.
-/

namespace Esql

open Esql.Files (Stream)
open Esql.Report (Channel Outcome StatusLine Style Verdict statusLine)
open Esql.Syntax (Cause Keyword Kind SyntaxError Terminal check)

/-! ## Texts -/

/-- The number of line feeds in a text. -/
def lineFeeds (text : String) : Nat := text.toList.count '\n'

@[simp] theorem lineFeeds_append (text text' : String) :
    lineFeeds (text ++ text') = lineFeeds text + lineFeeds text' := by
  simp [lineFeeds]

theorem lineFeeds_ofList (text : List Char) : lineFeeds (String.ofList text) = text.count '\n' := by
  rw [lineFeeds, String.toList_ofList]

@[simp] theorem lineFeeds_toString (n : Nat) : lineFeeds (toString n) = 0 := by
  rw [Nat.toString_eq_ofList_toDigits, lineFeeds_ofList]
  exact List.count_eq_zero.mpr fun h => Document.Json.visible_decimal h (by decide)

theorem lineFeeds_intercalate {separator : String} {texts : List String} (hseparator : lineFeeds separator = 0)
    (h : ∀ text ∈ texts, lineFeeds text = 0) : lineFeeds (separator.intercalate texts) = 0 := by
  induction texts with
  | nil => rfl
  | cons text texts ih =>
      obtain ⟨htext, htexts⟩ := List.forall_mem_cons.mp h
      cases texts with
      | nil => rwa [String.intercalate_singleton]
      | cons next texts =>
          rw [String.intercalate_cons_cons, lineFeeds_append, lineFeeds_append, htext, hseparator, ih htexts]

/-- A line is written to one of the two channels. -/
theorem lineFeeds_channels (lines : List StatusLine) :
    lineFeeds (textFor .output lines) + lineFeeds (textFor .error lines) =
      (lines.map fun line => lineFeeds line.text).sum := by
  have hcons : ∀ (channel : Channel) (line : StatusLine) (lines : List StatusLine),
      lineFeeds (textFor channel (line :: lines)) =
        (if line.channel = channel then lineFeeds line.text else 0) + lineFeeds (textFor channel lines) := by
    intro channel line lines
    by_cases h : line.channel = channel
    · simp [textFor, h]
    · simp [textFor, h]
  induction lines with
  | nil => rfl
  | cons line lines ih =>
      rw [hcons, hcons, List.map_cons, List.sum_cons, ← ih]
      cases line.channel with
      | output => simp only [if_pos, reduceCtorEq, if_false]; omega
      | error => simp only [if_pos, reduceCtorEq, if_false]; omega

/-! ## Messages -/

theorem lineFeeds_spelling (word : Keyword) : lineFeeds word.spelling = 0 := by
  cases word <;> rfl

theorem lineFeeds_label (terminal : Terminal) : lineFeeds terminal.label = 0 := by
  cases terminal with
  | kind kind => cases kind <;> rfl
  | word word =>
      rw [Terminal.label, lineFeeds_append, lineFeeds_append, lineFeeds_spelling]
      rfl
  | name => rfl

theorem lineFeeds_quoting {before quoted behind : String} (hbefore : lineFeeds before = 0)
    (hbehind : lineFeeds behind = 0) : lineFeeds (before ++ quoted ++ behind) = lineFeeds quoted := by
  rw [lineFeeds_append, lineFeeds_append, hbefore, hbehind, Nat.zero_add, Nat.add_zero]

/-- The line feeds of a message are those of the text that it quotes. -/
theorem lineFeeds_cause (cause : Cause) : lineFeeds cause.message = lineFeeds cause.quoted := by
  cases cause with
  | unrecognised text => exact lineFeeds_quoting rfl rfl
  | tooDeep limit opener =>
      refine lineFeeds_quoting ?_ rfl
      rw [lineFeeds_append, lineFeeds_append, lineFeeds_toString]
      rfl
  | mismatched found expected =>
      have hlabels : ∀ label ∈ Syntax.labels expected, lineFeeds label = 0 := by
        intro label hlabel
        obtain ⟨terminal, -, rfl⟩ := Syntax.mem_labels.mp hlabel
        exact lineFeeds_label terminal
      unfold Cause.message Cause.quoted
      dsimp only
      split
      · exact lineFeeds_quoting rfl rfl
      · next one hone =>
          have hlabel : lineFeeds one = 0 := hlabels one (hone ▸ List.mem_singleton_self one)
          rw [lineFeeds_append, lineFeeds_quoting rfl rfl, hlabel, Nat.add_zero]
      · have hmany := lineFeeds_intercalate (show lineFeeds ", " = 0 from rfl) hlabels
        rw [lineFeeds_append, lineFeeds_append, lineFeeds_quoting rfl rfl, hmany]
        rfl

/-- A fault quotes a piece of the statement, and its message has the line feeds of that piece. -/
theorem lineFeeds_fault {statement : String} {e : SyntaxError} (h : check statement = .error e) :
    ∃ before piece behind, statement.toList = before ++ (piece ++ behind) ∧
      e.position = Text.Position.start.after before ∧ lineFeeds e.message = piece.count '\n' := by
  obtain ⟨s, hruns, hstops⟩ := Syntax.checkBy_stops {} statement.toList
  rw [show Syntax.checkBy {} statement.toList = .error e from h] at hstops
  obtain ⟨before, piece, behind, htext, hplace, hquoted, -⟩ :=
    hstops.located (Syntax.runs_viable hruns).isIn (Syntax.runs_remember hruns)
  refine ⟨before, piece, behind, htext, hplace, ?_⟩
  rw [SyntaxError.message, lineFeeds_cause, hquoted, Syntax.shownPiece]
  split
  · next hnil =>
      rw [hnil]
      rfl
  · exact lineFeeds_ofList piece

/-! ## Status lines -/

/-- The message of a verdict, if it has one. -/
def Report.Verdict.message : Verdict → String
  | .invalid _ _ message => message
  | _ => ""

/-- The line feeds inside a status line: an object has none, plain words have those of the name and of the message. -/
def Report.Style.innerFeeds : Style → String → Verdict → Nat
  | .json, _, _ => 0
  | .text, input, verdict => lineFeeds input + lineFeeds verdict.message

theorem lineFeeds_statusLine (style : Style) (input : String) (verdict : Verdict) :
    lineFeeds (statusLine style input verdict).text = 1 + style.innerFeeds input verdict := by
  cases style with
  | json =>
      obtain ⟨body, htext, hvisible⟩ := Report.object_toList input verdict
      have hbody : body.count '\n' = 0 := List.count_eq_zero.mpr fun h => hvisible '\n' h (by decide)
      show (StatusLine.object input verdict).text.toList.count '\n' = 1
      rw [htext, List.count_append, hbody]
      rfl
  | text =>
      cases verdict with
      | valid =>
          show lineFeeds (input ++ ": ✓ valid\n") = 1 + (lineFeeds input + 0)
          rw [lineFeeds_append]
          exact Nat.add_comm _ _
      | skipped =>
          show lineFeeds (input ++ ": skipped (not an ES|QL detection rule)\n") = 1 + (lineFeeds input + 0)
          rw [lineFeeds_append]
          exact Nat.add_comm _ _
      | invalid line column message =>
          have hsentence : lineFeeds (SyntaxError.sentence line column message) = lineFeeds message := by
            refine lineFeeds_quoting ?_ rfl
            simp only [lineFeeds_append, lineFeeds_toString]
            rfl
          have hcolon : lineFeeds ":" = 0 := rfl
          have hmark : lineFeeds ": ✗ " = 0 := rfl
          have hend : lineFeeds "\n" = 1 := rfl
          show lineFeeds (input ++ ":" ++ toString line ++ ":" ++ toString column ++ ": ✗ "
            ++ SyntaxError.sentence line column message ++ "\n") = 1 + (lineFeeds input + lineFeeds message)
          simp only [lineFeeds_append, lineFeeds_toString, hsentence, hcolon, hmark, hend]
          omega

/-! ## What a run reports -/

/-- Verdicts on inputs, each of which is judged from some content. -/
def AllJudged [Diagnostics] (config : Config) (reports : List (String × Verdict)) : Prop :=
  ∀ r ∈ reports, ∃ content, config.judge r.1 content = .ok r.2

/-- Wherever the program ends well, it has written no line. -/
def Silent {α : Type} (record : ExceptT Failure (StateM (List Act)) α) : Prop :=
  ∀ before behind a, record.run.run before = (.ok a, behind) → Session.written behind = Session.written before

/-- Wherever the program ends well, the lines that it has written are those of some verdicts, and with these verdicts
    the outcome becomes the one that it ends with. -/
def Reports [Diagnostics] (config : Config) (outcome : Outcome)
    (record : ExceptT Failure (StateM (List Act)) Outcome) : Prop :=
  ∀ before behind outcome', record.run.run before = (.ok outcome', behind) →
    ∃ reports, Session.written behind = Session.written before ++ statusLines config reports ∧
      outcome' = recordAll outcome reports ∧ AllJudged config reports

section
variable {α β : Type} {config : Config} {files : FileSource} {stdin : Stream} {outcome : Outcome}

theorem Silent.bind {record : ExceptT Failure (StateM (List Act)) α} {next : α → ExceptT Failure (StateM (List Act)) β}
    (h : Silent record) (hnext : ∀ a, Silent (next a)) : Silent (record >>= next) := by
  intro before behind b hrun
  obtain ⟨a, between, hfirst, hsecond⟩ := run_bind_ok hrun
  exact (hnext a between behind b hsecond).trans (h before between a hfirst)

/-- What is done before makes no difference to what is reported, if no line is written. -/
theorem Silent.reports [Diagnostics] {record : ExceptT Failure (StateM (List Act)) α}
    {next : α → ExceptT Failure (StateM (List Act)) Outcome} (h : Silent record)
    (hnext : ∀ a, Reports config outcome (next a)) : Reports config outcome (record >>= next) := by
  intro before behind outcome' hrun
  obtain ⟨a, between, hfirst, hsecond⟩ := run_bind_ok hrun
  obtain ⟨reports, hlines, hreports⟩ := hnext a between behind outcome' hsecond
  exact ⟨reports, by rw [hlines, h before between a hfirst], hreports⟩

/-- The reports of two programs in a row are those of the first and then those of the second. -/
theorem Reports.bind [Diagnostics] {record : ExceptT Failure (StateM (List Act)) Outcome}
    {next : Outcome → ExceptT Failure (StateM (List Act)) Outcome} (h : Reports config outcome record)
    (hnext : ∀ outcome, Reports config outcome (next outcome)) : Reports config outcome (record >>= next) := by
  intro before behind outcome'' hrun
  obtain ⟨outcome', between, hfirst, hsecond⟩ := run_bind_ok hrun
  obtain ⟨reports, hlines, rfl, hjudged⟩ := h before between outcome' hfirst
  obtain ⟨reports', hlines', rfl, hjudged'⟩ := hnext _ between behind outcome'' hsecond
  refine ⟨reports ++ reports', ?_, ?_, ?_⟩
  · rw [hlines', hlines, List.append_assoc, statusLines, statusLines, statusLines, List.map_append]
  · rw [recordAll, recordAll, recordAll, List.foldl_append]
  · exact List.forall_mem_append.mpr ⟨hjudged, hjudged'⟩

/-- Acts without a line are silent, whatever comes of them. -/
theorem silent_of_asks {record : ExceptT Failure (StateM (List Act)) α} (answer : Except Failure α) (asks : List Act)
    (hasks : Session.written asks = []) (h : ∀ before, record.run.run before = (answer, before ++ asks)) :
    Silent record := by
  intro before behind a hrun
  rw [h before] at hrun
  obtain ⟨-, rfl⟩ := Prod.mk.inj hrun
  rw [Session.written_append, hasks, List.append_nil]

theorem silent_lift (answer : Except Failure α) : Silent (liftM answer) :=
  silent_of_asks answer [] rfl fun before => by rw [run_lift, List.append_nil]

theorem reports_pure [Diagnostics] (outcome : Outcome) : Reports config outcome (pure outcome) := by
  intro before behind outcome' hrun
  rw [run_pure] at hrun
  obtain ⟨hend, rfl⟩ := Prod.mk.inj hrun
  obtain rfl := Except.ok.inj hend
  exact ⟨[], by simp [statusLines], rfl, List.forall_mem_nil _⟩

theorem reports_process [Diagnostics] (outcome : Outcome) (input : String) (content : ByteArray) :
    Reports config outcome ((scribe files stdin).process config outcome input content) := by
  intro before behind outcome' hrun
  rw [process_acts] at hrun
  cases hjudge : config.judge input content with
  | error e =>
      rw [hjudge] at hrun
      cases hrun
  | ok verdict =>
      rw [hjudge] at hrun
      cases hrun
      exact ⟨[(input, verdict)], Session.written_append _ _, rfl, List.forall_mem_singleton.mpr ⟨content, hjudge⟩⟩

/-- By induction on the files: a file that is not the last one is followed by the others. -/
theorem reports_processFiles [Diagnostics] (outcome : Outcome) (paths : List String) :
    Reports config outcome ((scribe files stdin).processFiles config outcome paths) := by
  induction paths generalizing outcome with
  | nil => exact reports_pure outcome
  | cons path paths ih =>
      have hread : Silent (ExceptT.mk ((scribe files stdin).read path)) :=
        silent_of_asks (files.read path) [.call (.read path)] rfl fun _ => rfl
      refine hread.reports fun content => (reports_process outcome path content).bind fun outcome => ?_
      split
      · exact reports_pure outcome
      · exact ih outcome

theorem silent_resolveAll (patterns : List String) :
    Silent (patterns.mapM fun pattern => ExceptT.mk ((scribe files stdin).resolve pattern)) := by
  induction patterns with
  | nil => exact silent_lift (.ok [])
  | cons pattern patterns ih =>
      have hresolve : Silent (ExceptT.mk ((scribe files stdin).resolve pattern)) :=
        silent_of_asks (files.resolve pattern) [.call (.resolve pattern)] rfl fun _ => rfl
      rw [List.mapM_cons]
      exact hresolve.bind fun paths => ih.bind fun others => silent_lift (.ok (paths :: others))

/-- A run reports what it processes, wherever its inputs come from. -/
theorem reports_run [Diagnostics] (files : FileSource) (config : Config) (stdin : Stream) :
    Reports config {} (run (scribe files stdin) config) := by
  refine (silent_lift config.source).reports fun source => ?_
  cases source with
  | files patterns => exact (silent_resolveAll patterns).reports fun paths => reports_processFiles {} paths.flatten
  | literal text => exact reports_process {} literalLabel text.toUTF8
  | stdin =>
      have htake : ∀ n, Silent (liftM ((scribe files stdin).take n) : ExceptT Failure (StateM (List Act)) _) :=
        fun n => silent_of_asks (.ok (stdin.take n)) [.take n] rfl fun _ => rfl
      exact (htake _).reports fun bytes => (silent_lift _).reports fun content => reports_process {} stdinLabel content

end

/-- Every verdict that is recorded is counted. -/
theorem checked_recordAll (outcome : Outcome) (reports : List (String × Verdict)) :
    (recordAll outcome reports).checked = outcome.checked + reports.length := by
  induction reports generalizing outcome with
  | nil => rfl
  | cons r reports ih =>
      have hrecord : (outcome.record r.1 r.2).checked = outcome.checked + 1 := by
        cases r.2 <;> rfl
      rw [recordAll, List.foldl_cons, ← recordAll, ih, hrecord, List.length_cons]
      omega

/-! ## The lines of a run -/

/-- The message of a verdict quotes the query that is judged, if it says anything. -/
theorem lineFeeds_judged [Diagnostics] {config : Config} {input : String} {content : ByteArray} {verdict : Verdict}
    (h : config.judge input content = .ok verdict) :
    verdict.message = "" ∨ ∃ query before piece behind, config.format.extract content = .ok (.extracted query) ∧
      query.toList = before ++ (piece ++ behind) ∧ lineFeeds verdict.message = piece.count '\n' := by
  rw [Config.judge] at h
  cases hextract : config.format.extract content with
  | error cause =>
      rw [hextract] at h
      cases h
  | ok extraction =>
      rw [hextract] at h
      cases extraction with
      | skip =>
          cases h
          exact .inl rfl
      | extracted query =>
          cases h
          cases hcheck : check query with
          | ok =>
              refine .inl ?_
              rw [Verdict.ofStatement, hcheck]
              rfl
          | error e =>
              obtain ⟨before, piece, behind, htext, -, hfeeds⟩ := lineFeeds_fault hcheck
              refine .inr ⟨query, before, piece, behind, rfl, htext, ?_⟩
              rw [Verdict.ofStatement, hcheck]
              exact hfeeds

/-- **How many lines a run writes.** The lines of a run that ends with an outcome are those of the inputs that it has
    processed, and an object is a line. A status line in plain words is one line exactly if neither the name of the
    input nor the message has a line feed; the message has those of the piece of the query that it quotes. -/
theorem run_lineFeeds [Diagnostics] {session session' : Session} (hsinks : session.Unbounded) {files : FileSource}
    {config : Config} {outcome : Outcome} (h : session.run files config = (.ok outcome, session')) :
    ∃ (reports : List (String × Verdict)) (out err : String),
      (outcome = recordAll {} reports ∧ outcome.checked = reports.length) ∧
      (session'.output.kept = session.output.kept ++ out.toUTF8 ∧
        session'.error.kept = session.error.kept ++ err.toUTF8) ∧
      lineFeeds out + lineFeeds err =
        outcome.checked + (reports.map fun r => config.style.innerFeeds r.1 r.2).sum ∧
      (lineFeeds out + lineFeeds err = outcome.checked ↔
        config.style = .json ∨ ∀ r ∈ reports, lineFeeds r.1 = 0 ∧ lineFeeds r.2.message = 0) ∧
      ∀ r ∈ reports, ∃ content, config.judge r.1 content = .ok r.2 ∧
        (r.2.message = "" ∨ ∃ query before piece behind, config.format.extract content = .ok (.extracted query) ∧
          query.toList = before ++ (piece ++ behind) ∧ lineFeeds r.2.message = piece.count '\n') := by
  have hrun := run_enacts session files config
  rw [h, Session.enact_unbounded hsinks] at hrun
  obtain ⟨hend, rfl⟩ := Prod.mk.inj hrun
  obtain ⟨reports, hlines, houtcome, hjudged⟩ :=
    reports_run files config session.stdin [] (config.acts files session.stdin).2 outcome (Prod.ext hend.symm rfl)
  have hwritten : Session.written (config.acts files session.stdin).2 = statusLines config reports := hlines
  have hchecked : outcome.checked = reports.length := by
    rw [houtcome, checked_recordAll]
    exact Nat.zero_add _
  have hcount : lineFeeds (textFor .output (statusLines config reports)) +
      lineFeeds (textFor .error (statusLines config reports)) =
        outcome.checked + (reports.map fun r => config.style.innerFeeds r.1 r.2).sum := by
    rw [lineFeeds_channels, statusLines, List.map_map, hchecked]
    simp only [Function.comp_def, lineFeeds_statusLine, List.sum_map_add, List.map_const', List.sum_replicate_nat,
      Nat.mul_one]
  rw [← hwritten] at hcount
  refine ⟨reports, _, _, ⟨houtcome, hchecked⟩,
    ⟨Session.kept_didAll session _ .output, Session.kept_didAll session _ .error⟩, hcount, ?_, ?_⟩
  · rw [hcount, Nat.add_eq_left, List.sum_eq_zero_iff_forall_eq_nat, List.forall_mem_map]
    cases config.style with
    | json => simp [Report.Style.innerFeeds]
    | text => simp [Report.Style.innerFeeds]
  · intro r hr
    obtain ⟨content, hcontent⟩ := hjudged r hr
    exact ⟨content, hcontent, lineFeeds_judged hcontent⟩

/-- A fault that quotes a string of two lines is told in one line by an object. -/
theorem run_lineFeeds_object :
    let session : Session := { stdin := ⟨[], none⟩ }
    let files : FileSource := ⟨fun _ => .ok [], fun path => .error (.io path "gone")⟩
    let config : Config := { literal := some "FROM a \"\"\"x\ny\"\"\"", style := .json }
    session.Unbounded ∧ ∃ outcome session', session.run files config = (.ok outcome, session') ∧
      outcome.overallFailed = true ∧ ∃ out err,
        session'.output.kept = session.output.kept ++ String.toUTF8 out ∧
          session'.error.kept = session.error.kept ++ String.toUTF8 err ∧
          lineFeeds out + lineFeeds err = outcome.checked := by
  intro session files config
  have hsinks : session.Unbounded := ⟨rfl, rfl⟩
  obtain ⟨outcome, session', hrun, hfailed⟩ : ∃ outcome session',
      session.run files config = (.ok outcome, session') ∧ outcome.overallFailed = true := ⟨_, _, rfl, rfl⟩
  obtain ⟨reports, out, err, -, ⟨hout, herr⟩, -, hlines, -⟩ := run_lineFeeds hsinks hrun
  exact ⟨hsinks, outcome, session', hrun, hfailed, out, err, hout, herr, hlines.mpr (.inl rfl)⟩

/-- In plain words the same fault takes two lines, and they stand for one input. -/
theorem run_lineFeeds_twoLines :
    let session : Session := { stdin := ⟨[], none⟩ }
    let files : FileSource := ⟨fun _ => .ok [], fun path => .error (.io path "gone")⟩
    let config : Config := { literal := some "FROM a \"\"\"x\ny\"\"\"" }
    session.Unbounded ∧ ∃ outcome session' err, session.run files config = (.ok outcome, session') ∧
      session'.output.kept = ByteArray.empty ∧ session'.error.kept = String.toUTF8 err ∧
      lineFeeds err = 2 ∧ outcome.checked = 1 := by
  intro session files config
  obtain ⟨place, expected, hcheck⟩ : ∃ place expected,
      check "FROM a \"\"\"x\ny\"\"\"" = .error ⟨place, .mismatched "\"\"\"x\ny\"\"\"" expected⟩ := ⟨_, _, rfl⟩
  have hline : lineFeeds (statusLine .text literalLabel (.ofCheck (check "FROM a \"\"\"x\ny\"\"\""))).text = 2 := by
    have hname : lineFeeds literalLabel = 0 := rfl
    have hpiece : lineFeeds "\"\"\"x\ny\"\"\"" = 1 := rfl
    rw [hcheck, lineFeeds_statusLine, Report.Style.innerFeeds, hname, Verdict.ofCheck, Report.Verdict.message,
      SyntaxError.message, lineFeeds_cause, Cause.quoted, hpiece]
  exact ⟨⟨rfl, rfl⟩, _, _, _, rfl, rfl, rfl, hline, rfl⟩

end Esql
