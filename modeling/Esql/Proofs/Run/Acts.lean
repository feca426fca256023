import Esql.Proofs.Run.Files

/-!
# `Proofs.Run.Acts` — a run is a row of acts

A run asks for files, takes bytes from the standard input and writes status lines, in some order. `Config.acts` tells
the order: it is the run itself, over a host that answers as a session does and only writes down what it is asked
(`scribe`). This host refuses no line, so the acts and the end that they lead to do not depend on sinks.
`run_enacts` says what sinks do: a run in a session performs these acts one after the other, and stops at the first
line that is refused.

## Contents
- `Act`, `Session.perform` and `Session.enact`.
- What an input does to the record.
- `Session.didAll`, the session after some acts if no sink refuses, and what acts leave as it was.
- `Records`, two readings of one program that belong together, and each part of a run.
- `run_enacts`.
-/

namespace Esql

open Esql.Files (Stream)
open Esql.Report (Channel Outcome StatusLine Verdict statusLine)

/-- What a run does that can be seen from outside. -/
inductive Act where
  | call (call : Call)
  /-- Bytes of the standard input are asked for. -/
  | take (n : Nat)
  | write (line : StatusLine)
deriving DecidableEq, Repr

/-- The host that writes down what it is asked, and refuses no line. -/
def scribe (files : FileSource) (stdin : Stream) : Host (StateM (List Act)) where
  resolve pattern acts := (files.resolve pattern, acts ++ [.call (.resolve pattern)])
  read path acts := (files.read path, acts ++ [.call (.read path)])
  take n acts := (stdin.take n, acts ++ [.take n])
  write channel text acts := (.ok (), acts ++ [.write ⟨channel, text⟩])

/-- The end of a run whose lines are all written, and what it does until then, in order. -/
def Config.acts [Diagnostics] (config : Config) (files : FileSource) (stdin : Stream) :
    Except Failure Outcome × List Act :=
  (run (scribe files stdin) config).run.run []

/-- The sink with a text in it, whether there is room for it or not. -/
def Sink.keep (sink : Sink) (text : String) : Sink := { sink with kept := sink.kept ++ text.toUTF8 }

theorem Sink.write_unlimited {sink : Sink} (h : sink.limit = none) (text : String) :
    sink.write text = (.ok (), sink.keep text) := by
  obtain ⟨kept, limit⟩ := sink
  cases h
  rfl

namespace Session

/-- The sink of a channel. -/
def sink (session : Session) : Channel → Sink
  | .output => session.output
  | .error => session.error

/-- The session with another sink for a channel. -/
def withSink (session : Session) : Channel → Sink → Session
  | .output, sink => { session with output := sink }
  | .error, sink => { session with error := sink }

theorem sink_withSink (session : Session) (channel channel' : Channel) (sink : Sink) :
    (session.withSink channel sink).sink channel' = if channel = channel' then sink else session.sink channel' := by
  cases channel <;> cases channel' <;> rfl

theorem write_eq (session : Session) (channel : Channel) (text : String) :
    session.write channel text =
      (((session.sink channel).write text).1, session.withSink channel ((session.sink channel).write text).2) := by
  cases channel <;> rfl

/-- Perform some acts in a session, up to the first line that a sink refuses. -/
def perform (session : Session) : List Act → Except String Unit × Session
  | [] => (.ok (), session)
  | .call call :: acts => (session.log call).perform acts
  | .take n :: acts =>
    perform { session with taken := (Files.firstBytes n session.stdin.chunks).size } acts
  | .write line :: acts =>
    match session.write line.channel line.text with
    | (.ok (), session) => session.perform acts
    | (.error reason, session) => (.error reason, session)

/-- Perform some acts that lead to an end, which is not reached if a line is refused. -/
def enact {α : Type} (session : Session) (acts : List Act) (ending : Except Failure α) :
    Except Failure α × Session :=
  match session.perform acts with
  | (.ok (), session) => (ending, session)
  | (.error reason, session) => (.error (.unexpected reason), session)

variable {session : Session}

/-- Acts are performed one part after the other. -/
theorem perform_append (session : Session) (acts acts' : List Act) :
    session.perform (acts ++ acts')
      = match session.perform acts with
        | (.ok (), session) => session.perform acts'
        | (.error reason, session) => (.error reason, session) := by
  induction acts generalizing session with
  | nil => rfl
  | cons act acts ih =>
      cases act with
      | call call => exact ih (session.log call)
      | take n => exact ih _
      | write line =>
          rw [List.cons_append, perform, perform]
          rcases session.write line.channel line.text with ⟨reason | _, after⟩
          · rfl
          · exact ih after

/-- By induction on the acts: what each of them leaves as it was, a row of them does. -/
theorem perform_keeps {α : Type} (view : Session → α) {acts : List Act}
    (hview : ∀ session : Session, ∀ act ∈ acts, view (session.perform [act]).2 = view session) (session : Session) :
    view (session.perform acts).2 = view session := by
  induction acts generalizing session with
  | nil => rfl
  | cons act acts ih =>
      have hact := hview session act (.head _)
      have hacts := ih fun session act' hact' => hview session act' (.tail _ hact')
      rw [← List.singleton_append, perform_append]
      rcases hp : session.perform [act] with ⟨reason | _, after⟩
      · rw [hp] at hact
        exact hact
      · rw [hp] at hact
        exact (hacts after).trans hact

/-- A line changes nothing but a sink. -/
theorem perform_line {α : Type} (view : Session → α)
    (hview : ∀ (session : Session) (channel : Channel) (sink : Sink), view (session.withSink channel sink) = view session)
    (session : Session) (line : StatusLine) : view (session.perform [.write line]).2 = view session := by
  have hwrite : view (session.write line.channel line.text).2 = view session := by
    rw [write_eq]
    exact hview session _ _
  rw [perform]
  rcases hw : session.write line.channel line.text with ⟨reason | _, after⟩
  all_goals
    rw [hw] at hwrite
    exact hwrite

theorem perform_stdin (session : Session) (acts : List Act) : (session.perform acts).2.stdin = session.stdin := by
  refine perform_keeps Session.stdin (fun session act _ => ?_) session
  cases act with
  | call | take => rfl
  | write line => exact perform_line Session.stdin (fun _ channel _ => by cases channel <;> rfl) session line

/-- Acts without a request for files ask for none. -/
theorem perform_calls {acts : List Act} (h : ∀ call, .call call ∉ acts) (session : Session) :
    (session.perform acts).2.calls = session.calls := by
  refine perform_keeps Session.calls (fun session act hact => ?_) session
  cases act with
  | call call => exact absurd hact (h call)
  | take => rfl
  | write line => exact perform_line Session.calls (fun _ channel _ => by cases channel <;> rfl) session line

/-- Acts that ask for no byte of the standard input take none. -/
theorem perform_taken {acts : List Act} (h : ∀ n, .take n ∉ acts) (session : Session) :
    (session.perform acts).2.taken = session.taken := by
  refine perform_keeps Session.taken (fun session act hact => ?_) session
  cases act with
  | call => rfl
  | take n => exact absurd hact (h n)
  | write line => exact perform_line Session.taken (fun _ channel _ => by cases channel <;> rfl) session line

theorem enact_session {α : Type} (session : Session) (acts : List Act) (ending : Except Failure α) :
    (session.enact acts ending).2 = (session.perform acts).2 := by
  rw [enact]
  rcases session.perform acts with ⟨reason | _, after⟩ <;> rfl

/-- After acts that lead to a value, what comes next is performed in the session that is reached. -/
theorem enact_append {α β : Type} (session : Session) (acts acts' : List Act) (a : α) (ending : Except Failure β) :
    session.enact (acts ++ acts') ending
      = match session.enact acts (.ok a) with
        | (.ok _, session) => session.enact acts' ending
        | (.error e, session) => (.error e, session) := by
  rw [enact, perform_append, enact]
  rcases session.perform acts with ⟨reason | _, after⟩ <;> rfl

end Session

/-! ## What a program does to the record -/

/-- The first of two actions that end well ends well, and the second is run in the state behind it. -/
theorem run_bind_ok {σ α β : Type} {x : ExceptT Failure (StateM σ) α} {f : α → ExceptT Failure (StateM σ) β}
    {before behind : σ} {b : β} (h : (x >>= f).run.run before = (.ok b, behind)) :
    ∃ a between, x.run.run before = (.ok a, between) ∧ (f a).run.run between = (.ok b, behind) := by
  rw [run_bind] at h
  rcases hx : x.run.run before with ⟨e | a, between⟩
  · rw [hx] at h
    cases h
  · rw [hx] at h
    exact ⟨a, between, rfl, h⟩

/-- An input that is judged is one line and one verdict more. -/
theorem process_acts [Diagnostics] (files : FileSource) (stdin : Stream) (config : Config) (outcome : Outcome)
    (input : String) (content : ByteArray) (acts : List Act) :
    ((scribe files stdin).process config outcome input content).run.run acts =
      match config.judge input content with
      | .error e => (.error e, acts)
      | .ok verdict =>
        (.ok (outcome.record input verdict), acts ++ [.write (statusLine config.style input verdict)]) := by
  rw [Host.process, run_bind, run_lift]
  cases config.judge input content with
  | error e => rfl
  | ok verdict => rfl

/-! ## Acts that are all done -/

namespace Session

/-- The session after an act, if no sink refuses. -/
def did (session : Session) : Act → Session
  | .call call => session.log call
  | .take n => { session with taken := (Files.firstBytes n session.stdin.chunks).size }
  | .write line => session.withSink line.channel ((session.sink line.channel).keep line.text)

/-- The session after some acts, if no sink refuses. -/
def didAll (session : Session) (acts : List Act) : Session := acts.foldl did session

variable {session : Session}

theorem didAll_append (session : Session) (acts acts' : List Act) :
    session.didAll (acts ++ acts') = (session.didAll acts).didAll acts' := List.foldl_append

/-- Sinks keep their limits. -/
theorem didAll_limit (session : Session) (acts : List Act) (channel : Channel) :
    ((session.didAll acts).sink channel).limit = (session.sink channel).limit := by
  induction acts generalizing session with
  | nil => rfl
  | cons act acts ih =>
      have hact : ((session.did act).sink channel).limit = (session.sink channel).limit := by
        cases act with
        | call | take => cases channel <;> rfl
        | write line =>
            rw [did, sink_withSink]
            split
            · next heq => exact heq ▸ rfl
            · rfl
      exact (ih (session.did act)).trans hact

/-- The lines among some acts. -/
def written (acts : List Act) : List StatusLine :=
  acts.filterMap fun
    | .write line => some line
    | _ => none

theorem written_append (acts acts' : List Act) : written (acts ++ acts') = written acts ++ written acts' :=
  List.filterMap_append

theorem written_write (lines : List StatusLine) : written (lines.map .write) = lines := by
  rw [written, List.filterMap_map]
  exact List.filterMap_some

/-- A sink keeps the lines of its channel. -/
theorem kept_didAll (session : Session) (acts : List Act) (channel : Channel) :
    ((session.didAll acts).sink channel).kept =
      (session.sink channel).kept ++ (textFor channel (written acts)).toUTF8 := by
  induction acts generalizing session with
  | nil => simp [didAll, written, textFor]
  | cons act acts ih =>
      rw [didAll, List.foldl_cons, ← didAll, ih]
      cases act with
      | call | take => cases channel <;> rfl
      | write line =>
          rw [did, sink_withSink]
          split
          · next heq => simp [written, textFor, heq, Sink.keep, ByteArray.append_assoc]
          · next hne => simp [written, textFor, hne]

theorem Unbounded.limit (h : session.Unbounded) (channel : Channel) : (session.sink channel).limit = none := by
  cases channel with
  | output => exact h.output
  | error => exact h.error

theorem Unbounded.did (h : session.Unbounded) (act : Act) : (session.did act).Unbounded :=
  ⟨(didAll_limit session [act] .output).trans h.output, (didAll_limit session [act] .error).trans h.error⟩

/-- Sinks that never refuse let all acts be done. -/
theorem perform_unbounded (h : session.Unbounded) (acts : List Act) :
    session.perform acts = (.ok (), session.didAll acts) := by
  induction acts generalizing session with
  | nil => rfl
  | cons act acts ih =>
      have hacts := ih (h.did act)
      cases act with
      | call | take => exact hacts
      | write line =>
          rw [perform, write_eq, Sink.write_unlimited (h.limit _)]
          exact hacts

theorem enact_unbounded {α : Type} (h : session.Unbounded) (acts : List Act) (ending : Except Failure α) :
    session.enact acts ending = (ending, session.didAll acts) := by
  rw [enact, perform_unbounded h]

end Session

/-! ## Two readings of a program -/

/-- The record of a program tells what the program does in every session with this standard input. -/
def Records {α : Type} (stdin : Stream) (program : ExceptT Failure (StateM Session) α)
    (record : ExceptT Failure (StateM (List Act)) α) : Prop :=
  ∃ (acts : List Act) (ending : Except Failure α),
    (∀ before, record.run.run before = (ending, before ++ acts)) ∧
      ∀ session : Session, session.stdin = stdin → program.run.run session = session.enact acts ending

namespace Records

variable {α β : Type} {stdin : Stream} {files : FileSource} {config : Config}

theorem pure (a : α) : Records stdin (pure a) (pure a) :=
  ⟨[], .ok a, fun before => by rw [run_pure, List.append_nil], fun session _ => run_pure a session⟩

theorem lift (answer : Except Failure α) : Records stdin (liftM answer) (liftM answer) :=
  ⟨[], answer, fun before => by rw [run_lift, List.append_nil], fun session _ => run_lift answer session⟩

/-- The acts of two programs in a row are those of the first and, unless that one fails, those of the second. -/
theorem bind {program : ExceptT Failure (StateM Session) α} {record : ExceptT Failure (StateM (List Act)) α}
    {next : α → ExceptT Failure (StateM Session) β} {nextRecord : α → ExceptT Failure (StateM (List Act)) β}
    (h : Records stdin program record) (hnext : ∀ a, Records stdin (next a) (nextRecord a)) :
    Records stdin (program >>= next) (record >>= nextRecord) := by
  obtain ⟨acts, ending, hrecord, hprogram⟩ := h
  cases ending with
  | error e =>
      refine ⟨acts, .error e, fun before => ?_, fun session hstdin => ?_⟩
      · rw [run_bind, hrecord]
      · rw [run_bind, hprogram session hstdin, Session.enact, Session.enact]
        rcases session.perform acts with ⟨reason | _, after⟩ <;> rfl
  | ok a =>
      obtain ⟨acts', ending', hrecord', hprogram'⟩ := hnext a
      refine ⟨acts ++ acts', ending', fun before => ?_, fun session hstdin => ?_⟩
      · rw [run_bind, hrecord]
        dsimp only
        rw [hrecord', List.append_assoc]
      · have hreached := Session.perform_stdin session acts
        rw [run_bind, hprogram session hstdin, Session.enact_append session acts acts' a, Session.enact]
        rcases hp : session.perform acts with ⟨reason | _, after⟩
        · rfl
        · rw [hp] at hreached
          exact hprogram' after (hreached.trans hstdin)

/-! ## The parts of a run -/

theorem resolve (pattern : String) :
    Records stdin (ExceptT.mk ((Session.host files).resolve pattern))
      (ExceptT.mk ((scribe files stdin).resolve pattern)) :=
  ⟨[.call (.resolve pattern)], files.resolve pattern, fun _ => rfl, fun _ _ => rfl⟩

theorem read (path : String) :
    Records stdin (ExceptT.mk ((Session.host files).read path)) (ExceptT.mk ((scribe files stdin).read path)) :=
  ⟨[.call (.read path)], files.read path, fun _ => rfl, fun _ _ => rfl⟩

theorem take (n : Nat) :
    Records stdin (liftM ((Session.host files).take n)) (liftM ((scribe files stdin).take n)) :=
  ⟨[.take n], .ok (stdin.take n), fun _ => rfl, fun session hstdin => by rw [← hstdin]; rfl⟩

/-- A report is the one act that a sink can refuse. -/
theorem report (input : String) (verdict : Verdict) :
    Records stdin ((Session.host files).report config input verdict)
      ((scribe files stdin).report config input verdict) := by
  refine ⟨[.write (statusLine config.style input verdict)], .ok (), fun _ => rfl, fun session _ => ?_⟩
  rw [report_write, Session.enact, Session.perform]
  dsimp only
  rcases session.write _ _ with ⟨reason | _, after⟩ <;> rfl

theorem process [Diagnostics] (outcome : Outcome) (input : String) (content : ByteArray) :
    Records stdin ((Session.host files).process config outcome input content)
      ((scribe files stdin).process config outcome input content) :=
  bind (lift _) fun verdict => bind (report input verdict) fun _ => pure _

/-- By induction on the files: a file that is not the last one is followed by the others. -/
theorem processFiles [Diagnostics] (outcome : Outcome) (paths : List String) :
    Records stdin ((Session.host files).processFiles config outcome paths)
      ((scribe files stdin).processFiles config outcome paths) := by
  induction paths generalizing outcome with
  | nil => exact pure outcome
  | cons path paths ih =>
      refine bind (read path) fun content => bind (process outcome path content) fun outcome => ?_
      by_cases hfailed : outcome.overallFailed
      · simp only [if_pos hfailed]
        exact pure outcome
      · simp only [if_neg hfailed]
        exact ih outcome

theorem resolveAll (patterns : List String) :
    Records stdin (patterns.mapM fun pattern => ExceptT.mk ((Session.host files).resolve pattern))
      (patterns.mapM fun pattern => ExceptT.mk ((scribe files stdin).resolve pattern)) := by
  induction patterns with
  | nil => exact pure []
  | cons pattern patterns ih =>
      rw [List.mapM_cons, List.mapM_cons]
      exact bind (resolve pattern) fun paths => bind ih fun others => pure (paths :: others)

theorem run [Diagnostics] (files : FileSource) (config : Config) (stdin : Stream) :
    Records stdin (Esql.run (Session.host files) config) (Esql.run (scribe files stdin) config) := by
  refine bind (lift config.source) fun source => ?_
  cases source with
  | files patterns => exact bind (resolveAll patterns) fun paths => processFiles {} paths.flatten
  | literal text => exact process {} literalLabel text.toUTF8
  | stdin => exact bind (take _) fun bytes => bind (lift _) fun content => process {} stdinLabel content

end Records

/-- **Sinks decide only how far a run comes.** A run in a session performs the acts of the run, which do not depend on
    the sinks, and comes to its end unless a line is refused on the way. -/
theorem run_enacts [Diagnostics] (session : Session) (files : FileSource) (config : Config) :
    session.run files config
      = session.enact (config.acts files session.stdin).2 (config.acts files session.stdin).1 := by
  obtain ⟨acts, ending, hrecord, hprogram⟩ := Records.run files config session.stdin
  rw [Config.acts, hrecord []]
  exact hprogram session rfl

theorem run_of_acts [Diagnostics] {session : Session} {files : FileSource} {config : Config} {acts : List Act}
    {ending : Except Failure Outcome} (h : config.acts files session.stdin = (ending, acts)) :
    session.run files config = session.enact acts ending := by
  rw [run_enacts, h]

end Esql
