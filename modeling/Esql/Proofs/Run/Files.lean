import Esql.Run.Validate

/-!
# `Proofs.Run.Files` — what a run over files does

A run over files does four things that can be seen from outside: it asks for files, it writes to two
channels, and it ends with an outcome or a failure. `Course` says, for every behaviour of the files, which
requests are made and in which order, which status lines are written, and how the run ends;
`run_iff_course` says that a run whose sinks keep all that is written is exactly that.

## Contents
- `Session.after`: a session after some requests and some status lines.
- `Passes` and `Course`: what a run over files does, without reference to how it is programmed.
- One file, all files of a run (by induction on the files that pass), all patterns.
-/

namespace Esql

open Esql.Report (Channel Outcome StatusLine Verdict statusLine)
open Esql.Syntax (SyntaxError check)

/-! ## Sessions whose sinks keep all that is written -/

/-- The text of those lines that are written to a channel. -/
def textFor (channel : Channel) (lines : List StatusLine) : String :=
  String.join ((lines.filter fun line => line.channel = channel).map StatusLine.text)

namespace Session

/-- The session after these requests for files and these status lines. -/
def after (session : Session) (calls : List Call) (lines : List StatusLine) : Session :=
  { session with
    calls := session.calls ++ calls
    output := { session.output with
      kept := session.output.kept ++ (textFor .output lines).toUTF8 }
    error := { session.error with kept := session.error.kept ++ (textFor .error lines).toUTF8 } }

/-- The sinks of the session never refuse a text. -/
structure Unbounded (session : Session) : Prop where
  output : session.output.limit = none
  error : session.error.limit = none

variable {session : Session}

theorem after_after (session : Session) (calls calls' : List Call) (lines lines' : List StatusLine) :
    (session.after calls lines).after calls' lines' = session.after (calls ++ calls') (lines ++ lines') := by
  simp [after, textFor, ByteArray.append_assoc, String.join_append]

theorem Unbounded.after (h : session.Unbounded) (calls : List Call) (lines : List StatusLine) :
    (session.after calls lines).Unbounded := ⟨h.output, h.error⟩

theorem after_nil (session : Session) : session.after [] [] = session := by
  simp [after, textFor]

/-- A request for files is all that is logged of it. -/
theorem log_eq_after (session : Session) (call : Call) : session.log call = session.after [call] [] := by
  simp [log, after, textFor]

/-- A sink that never refuses keeps the whole line. -/
theorem write_unbounded (h : session.Unbounded) (line : StatusLine) :
    session.write line.channel line.text = (.ok (), session.after [] [line]) := by
  obtain ⟨stdin, ⟨kept, limit⟩, ⟨kept', limit'⟩, calls, taken⟩ := session
  obtain ⟨rfl, rfl⟩ : limit = none ∧ limit' = none := ⟨h.output, h.error⟩
  obtain ⟨channel, text⟩ := line
  cases channel <;> simp [write, Sink.write, after, textFor]

end Session

/-! ## What a run over files does -/

section
variable (files : FileSource) (config : Config)

/-- A file that is read, and whose content does not end a run: the query in it is valid, or it holds none
    to be checked. -/
inductive Passes [Diagnostics] (path : String) : Verdict → Prop where
  | valid {content query} : files.read path = .ok content →
      config.format.extract content = .ok (.extracted query) → check query = .ok () →
      Passes path .valid
  | skipped {content} : files.read path = .ok content →
      config.format.extract content = .ok .skip → Passes path .skipped

/-- Patterns with the files that match them. -/
def Resolves (resolved : List (String × List String)) : Prop :=
  ∀ r ∈ resolved, files.resolve r.1 = .ok r.2

/-- Files with the verdicts on them, none of which ends a run. -/
def AllPass [Diagnostics] (seen : List (String × Verdict)) : Prop := ∀ s ∈ seen, Passes files config s.1 s.2

/-- The status lines of files with these verdicts. -/
def statusLines (seen : List (String × Verdict)) : List StatusLine :=
  seen.map fun s => statusLine config.style s.1 s.2

/-- The requests of a run: all patterns, then these files. -/
def requests (paths : List String) : List Call := config.patterns.map .resolve ++ paths.map .read

/-- The outcome of a run in which these verdicts and no others are found. -/
def passedOutcome (seen : List (String × Verdict)) : Outcome where
  checked := seen.length
  valid := (seen.map Prod.snd).count .valid
  skipped := (seen.map Prod.snd).count .skipped

/-- `Course session files config result`: the run ends as in `result`, in the session that is given
    there. The files that pass before the one that ends the run are `seen`. -/
inductive Course [Diagnostics] (session : Session) : Except Failure Outcome × Session → Prop where
  /-- A pattern cannot be resolved: no file is read and nothing is written. -/
  | unresolved {resolved pattern others e} :
      config.patterns = resolved.map Prod.fst ++ pattern :: others → Resolves files resolved →
      files.resolve pattern = .error e →
      Course session
        (.error e, session.after ((resolved.map Prod.fst ++ [pattern]).map .resolve) [])
  /-- A file cannot be read. -/
  | unread {resolved seen path others e} :
      config.patterns = resolved.map Prod.fst → Resolves files resolved →
      (resolved.map Prod.snd).flatten = seen.map Prod.fst ++ path :: others →
      AllPass files config seen → files.read path = .error e →
      Course session
        (.error e,
          session.after (requests config (seen.map Prod.fst ++ [path])) (statusLines config seen))
  /-- No query is found in a file. -/
  | unextracted {resolved seen path others content cause} :
      config.patterns = resolved.map Prod.fst → Resolves files resolved →
      (resolved.map Prod.snd).flatten = seen.map Prod.fst ++ path :: others →
      AllPass files config seen → files.read path = .ok content →
      config.format.extract content = .error cause →
      Course session
        (.error (.extraction path cause),
          session.after (requests config (seen.map Prod.fst ++ [path])) (statusLines config seen))
  /-- The query in a file is refused: no later file is read. -/
  | invalid {resolved seen path others content query e} :
      config.patterns = resolved.map Prod.fst → Resolves files resolved →
      (resolved.map Prod.snd).flatten = seen.map Prod.fst ++ path :: others →
      AllPass files config seen → files.read path = .ok content →
      config.format.extract content = .ok (.extracted query) → check query = .error e →
      Course session
        (.ok { passedOutcome seen with
            overallFailed := true
            firstFailure := some ⟨path, e.display⟩
            checked := seen.length + 1 },
          session.after (requests config (seen.map Prod.fst ++ [path]))
            (statusLines config seen
              ++ [statusLine config.style path
                    (.invalid e.position.line e.position.column e.message)]))
  /-- Every file passes. -/
  | complete {resolved seen} :
      config.patterns = resolved.map Prod.fst → Resolves files resolved →
      (resolved.map Prod.snd).flatten = seen.map Prod.fst → AllPass files config seen →
      Course session
        (.ok (passedOutcome seen),
          session.after (requests config (seen.map Prod.fst)) (statusLines config seen))

end

/-! ## One file -/

variable {files : FileSource} {config : Config} {session : Session}

/-- The second of two actions is run in the state after the first, unless that one fails. -/
theorem run_bind {σ α β : Type} (x : ExceptT Failure (StateM σ) α) (f : α → ExceptT Failure (StateM σ) β)
    (state : σ) :
    (x >>= f).run.run state
      = match x.run.run state with
        | (.ok a, state) => (f a).run.run state
        | (.error e, state) => (.error e, state) := by
  rw [ExceptT.run_bind, StateT.run_bind]
  rcases x.run.run state with ⟨e | a, _⟩ <;> rfl

theorem run_pure {σ α : Type} (a : α) (state : σ) :
    (pure a : ExceptT Failure (StateM σ) α).run.run state = (.ok a, state) := rfl

/-- An answer that is known already leaves the state as it is. -/
theorem run_lift {σ α : Type} (answer : Except Failure α) (state : σ) :
    (liftM answer : ExceptT Failure (StateM σ) α).run.run state = (answer, state) := by
  cases answer <;> rfl

/-- The report of a verdict in any session: the line may be refused by a sink. -/
theorem report_write (session : Session) (files : FileSource) (config : Config) (input : String)
    (verdict : Verdict) :
    ((Session.host files).report config input verdict).run.run session =
      let line := statusLine config.style input verdict
      match session.write line.channel line.text with
      | (.ok (), session) => (.ok (), session)
      | (.error reason, session) => (.error (.unexpected reason), session) := by
  generalize hline : statusLine config.style input verdict = line
  have hwrite : (liftM ((Session.host files).write line.channel line.text) :
      ExceptT Failure (StateM Session) _).run.run session =
        (.ok (session.write line.channel line.text).1, (session.write line.channel line.text).2) := rfl
  rw [Host.report, hline, run_bind, hwrite]
  dsimp only
  rcases session.write line.channel line.text with ⟨reason | _, after⟩ <;> rfl

/-- The report of a verdict is its status line, and no failure. -/
theorem report_run (hsinks : session.Unbounded) (path : String) (verdict : Verdict) :
    ((Session.host files).report config path verdict).run.run session
      = (.ok (), session.after [] [statusLine config.style path verdict]) := by
  rw [report_write]
  dsimp only
  rw [Session.write_unbounded hsinks]

/-- What a run does with the first of its files. -/
theorem processFiles_cons [Diagnostics] (hsinks : session.Unbounded) (outcome : Outcome) (path : String)
    (paths : List String) :
    ((Session.host files).processFiles config outcome (path :: paths)).run.run session
      = match files.read path with
        | .error e => (.error e, session.after [.read path] [])
        | .ok content =>
          match config.judge path content with
          | .error e => (.error e, session.after [.read path] [])
          | .ok verdict =>
            let session := session.after [.read path] [statusLine config.style path verdict]
            let outcome := outcome.record path verdict
            if outcome.overallFailed then (.ok outcome, session)
            else ((Session.host files).processFiles config outcome paths).run.run session := by
  have hread : (ExceptT.mk ((Session.host files).read path)).run.run session
      = (files.read path, session.after [.read path] []) := by
    rw [← Session.log_eq_after]
    rfl
  rw [Host.processFiles, run_bind, hread]
  cases files.read path with
  | error e => rfl
  | ok content =>
      dsimp only
      rw [run_bind, Host.process, run_bind, run_lift]
      cases config.judge path content with
      | error e => rfl
      | ok verdict =>
          dsimp only
          rw [run_bind, report_run (hsinks.after _ _), Session.after_after]
          dsimp only
          rw [run_pure]
          dsimp only
          split <;> rfl

/-- A file that passes is one whose verdict lets the run go on. -/
theorem Passes.judge [Diagnostics] {path : String} {verdict : Verdict} (h : Passes files config path verdict) :
    ∃ content, files.read path = .ok content ∧ config.judge path content = .ok verdict ∧
      (verdict = .valid ∨ verdict = .skipped) := by
  cases h with
  | @valid content query hread hextract hcheck =>
      exact ⟨content, hread, by simp [Config.judge, hextract, Verdict.ofStatement, hcheck, Verdict.ofCheck],
        .inl rfl⟩
  | @skipped content hread hextract =>
      exact ⟨content, hread, by simp [Config.judge, hextract], .inr rfl⟩

/-! ## All files of a run -/

/-- The outcome after all of these verdicts. -/
def recordAll (outcome : Outcome) (seen : List (String × Verdict)) : Outcome :=
  seen.foldl (fun outcome s => outcome.record s.1 s.2) outcome

theorem AllPass.tail [Diagnostics] {s : String × Verdict} {seen : List (String × Verdict)}
    (h : AllPass files config (s :: seen)) : AllPass files config seen := fun t ht => h t (.tail _ ht)

/-- Files that pass are counted, and nothing else of the outcome changes. -/
theorem recordAll_passed [Diagnostics] {seen : List (String × Verdict)} (hseen : AllPass files config seen)
    (outcome : Outcome) :
    recordAll outcome seen
      = { outcome with
          checked := outcome.checked + seen.length
          valid := outcome.valid + (seen.map Prod.snd).count .valid
          skipped := outcome.skipped + (seen.map Prod.snd).count .skipped } := by
  induction seen generalizing outcome with
  | nil => rfl
  | cons s seen ih =>
      obtain ⟨_, _, _, hverdict⟩ := (hseen s (.head _)).judge
      rw [recordAll, List.foldl_cons, ← recordAll, ih hseen.tail]
      rcases hverdict with hverdict | hverdict <;>
        simp [hverdict, Outcome.record, Nat.add_assoc, Nat.add_comm, Nat.add_left_comm]

/-- Files that pass are read, reported and recorded one after the other, and the run goes on behind them. -/
theorem processFiles_append [Diagnostics] {seen : List (String × Verdict)} (hseen : AllPass files config seen)
    (hsinks : session.Unbounded) {outcome : Outcome} (hgood : outcome.overallFailed = false)
    (paths : List String) :
    ((Session.host files).processFiles config outcome (seen.map Prod.fst ++ paths)).run.run session
      = ((Session.host files).processFiles config (recordAll outcome seen) paths).run.run
          (session.after ((seen.map Prod.fst).map .read) (statusLines config seen)) := by
  induction seen generalizing session outcome with
  | nil =>
      rw [List.map_nil, List.map_nil, statusLines, List.map_nil, Session.after_nil]
      rfl
  | cons s seen ih =>
      obtain ⟨content, hread, hjudge, hverdict⟩ := (hseen s (.head _)).judge
      have hgood' : (outcome.record s.1 s.2).overallFailed = false := by
        rcases hverdict with hverdict | hverdict <;> simp [hverdict, Outcome.record, hgood]
      rw [List.map_cons, List.cons_append, processFiles_cons hsinks, hread]
      dsimp only
      rw [hjudge]
      dsimp only
      rw [if_neg (by simp [hgood']), ih hseen.tail (hsinks.after _ _) hgood', Session.after_after]
      rfl

/-! ## All patterns -/

/-- A pattern that is resolved is asked for, and nothing is written. -/
theorem resolve_run (pattern : String) (session : Session) :
    (ExceptT.mk ((Session.host files).resolve pattern)).run.run session
      = (files.resolve pattern, session.after [.resolve pattern] []) := by
  rw [← Session.log_eq_after]
  rfl

theorem Resolves.tail {r : String × List String} {resolved : List (String × List String)}
    (h : Resolves files (r :: resolved)) : Resolves files resolved := fun t ht => h t (.tail _ ht)

/-- Patterns that can all be resolved are asked for in order. -/
theorem resolveAll_ok {resolved : List (String × List String)} (h : Resolves files resolved)
    (session : Session) :
    ((resolved.map Prod.fst).mapM fun pattern =>
        ExceptT.mk ((Session.host files).resolve pattern)).run.run session
      = (.ok (resolved.map Prod.snd), session.after ((resolved.map Prod.fst).map .resolve) []) := by
  induction resolved generalizing session with
  | nil =>
      simp only [List.map_nil, Session.after_nil]
      rfl
  | cons r resolved ih =>
      rw [List.map_cons, List.mapM_cons, run_bind, resolve_run, h r (.head _)]
      dsimp only
      rw [run_bind, ih h.tail, Session.after_after]
      rfl

/-- The first pattern that cannot be resolved is the last one that is asked for. -/
theorem resolveAll_error {resolved : List (String × List String)} (h : Resolves files resolved)
    {pattern : String} {e : Failure} (hpattern : files.resolve pattern = .error e)
    (others : List String) (session : Session) :
    ((resolved.map Prod.fst ++ pattern :: others).mapM fun pattern =>
        ExceptT.mk ((Session.host files).resolve pattern)).run.run session
      = (.error e, session.after ((resolved.map Prod.fst ++ [pattern]).map .resolve) []) := by
  induction resolved generalizing session with
  | nil =>
      rw [List.map_nil, List.nil_append, List.mapM_cons, run_bind, resolve_run, hpattern]
      rfl
  | cons r resolved ih =>
      rw [List.map_cons, List.cons_append, List.mapM_cons, run_bind, resolve_run, h r (.head _)]
      dsimp only
      rw [run_bind, ih h.tail, Session.after_after]
      rfl

/-- A run with patterns resolves them all and then processes what is found. -/
theorem run_files [Diagnostics] {patterns : List String} (hsource : config.source = .ok (.files patterns))
    (session : Session) :
    session.run files config
      = (do
          let paths ← patterns.mapM fun pattern => ExceptT.mk ((Session.host files).resolve pattern)
          (Session.host files).processFiles config {} paths.flatten).run.run session := by
  rw [Session.run, run, hsource]
  rfl

/-- Behind patterns that can all be resolved, a run processes the files that are found. -/
theorem run_resolved [Diagnostics] {resolved : List (String × List String)}
    (hsource : config.source = .ok (.files (resolved.map Prod.fst))) (h : Resolves files resolved)
    (session : Session) :
    session.run files config
      = ((Session.host files).processFiles config {} (resolved.map Prod.snd).flatten).run.run
          (session.after ((resolved.map Prod.fst).map .resolve) []) := by
  rw [run_files hsource, run_bind, resolveAll_ok h]

/-! ## The course of a run -/

theorem source_files (hliteral : config.literal = none) (hpatterns : config.patterns ≠ []) :
    config.source = .ok (.files config.patterns) := by
  unfold Config.source
  rw [hliteral]
  cases h : config.patterns with
  | nil => exact absurd h hpatterns
  | cons pattern patterns => rfl

/-- All patterns can be resolved, or there is a first one that cannot. -/
theorem resolves_or_fails (files : FileSource) (patterns : List String) :
    (∃ resolved, patterns = resolved.map Prod.fst ∧ Resolves files resolved) ∨
      ∃ resolved pattern others e, patterns = resolved.map Prod.fst ++ pattern :: others ∧
        Resolves files resolved ∧ files.resolve pattern = .error e := by
  induction patterns with
  | nil => exact .inl ⟨[], rfl, fun _ h => absurd h (by simp)⟩
  | cons pattern patterns ih =>
      cases hpattern : files.resolve pattern with
      | error e => exact .inr ⟨[], pattern, patterns, e, rfl, fun _ h => absurd h (by simp), hpattern⟩
      | ok paths =>
          have hcons : ∀ {resolved}, Resolves files resolved →
              Resolves files ((pattern, paths) :: resolved) := by
            intro resolved h r hr
            rcases List.mem_cons.mp hr with rfl | hr
            · exact hpattern
            · exact h r hr
          rcases ih with ⟨resolved, rfl, h⟩ | ⟨resolved, pattern', others, e, rfl, h, hfails⟩
          · exact .inl ⟨(pattern, paths) :: resolved, rfl, hcons h⟩
          · exact .inr ⟨(pattern, paths) :: resolved, pattern', others, e, rfl, hcons h, hfails⟩

/-- All files pass, or there is a first one that does not. -/
theorem allPass_or_ends [Diagnostics] (files : FileSource) (config : Config) (paths : List String) :
    (∃ seen, paths = seen.map Prod.fst ∧ AllPass files config seen) ∨
      ∃ seen path others, paths = seen.map Prod.fst ++ path :: others ∧ AllPass files config seen ∧
        ¬ ∃ verdict, Passes files config path verdict := by
  induction paths with
  | nil => exact .inl ⟨[], rfl, fun _ h => absurd h (by simp)⟩
  | cons path paths ih =>
      by_cases hpath : ∃ verdict, Passes files config path verdict
      · obtain ⟨verdict, hpath⟩ := hpath
        have hcons : ∀ {seen}, AllPass files config seen →
            AllPass files config ((path, verdict) :: seen) := by
          intro seen h s hs
          rcases List.mem_cons.mp hs with rfl | hs
          · exact hpath
          · exact h s hs
        rcases ih with ⟨seen, rfl, h⟩ | ⟨seen, path', others, rfl, h, hends⟩
        · exact .inl ⟨(path, verdict) :: seen, rfl, hcons h⟩
        · exact .inr ⟨(path, verdict) :: seen, path', others, rfl, hcons h, hends⟩
      · exact .inr ⟨[], path, paths, rfl, fun _ h => absurd h (by simp), hpath⟩

/-- Whatever the files are, some course describes the run. -/
theorem exists_course [Diagnostics] (session : Session) (files : FileSource) (config : Config) :
    ∃ result, Course files config session result := by
  rcases resolves_or_fails files config.patterns with
    ⟨resolved, hall, h⟩ | ⟨resolved, pattern, others, e, hsplit, h, hpattern⟩
  · rcases allPass_or_ends files config (resolved.map Prod.snd).flatten with
      ⟨seen, hpaths, hseen⟩ | ⟨seen, path, others, hpaths, hseen, hends⟩
    · exact ⟨_, .complete hall h hpaths hseen⟩
    · -- The file that does not pass ends the run in one of three ways.
      cases hread : files.read path with
      | error e => exact ⟨_, .unread hall h hpaths hseen hread⟩
      | ok content =>
          cases hextract : config.format.extract content with
          | error cause => exact ⟨_, .unextracted hall h hpaths hseen hread hextract⟩
          | ok extraction =>
              cases extraction with
              | skip => exact absurd ⟨_, .skipped hread hextract⟩ hends
              | extracted query =>
                  cases hcheck : check query with
                  | ok => exact absurd ⟨_, .valid hread hextract hcheck⟩ hends
                  | error e => exact ⟨_, .invalid hall h hpaths hseen hread hextract hcheck⟩
  · exact ⟨_, .unresolved hsplit h hpattern⟩

/-- A course tells how the run ends and what it does. -/
theorem Course.run_eq [Diagnostics] {result : Except Failure Outcome × Session} (hliteral : config.literal = none)
    (hpatterns : config.patterns ≠ []) (hsinks : session.Unbounded)
    (h : Course files config session result) : session.run files config = result := by
  have hsource := source_files hliteral hpatterns
  cases h with
  | unresolved hsplit hresolved hpattern =>
      rw [run_files hsource, run_bind, hsplit, resolveAll_error hresolved hpattern]
  | unread hall hresolved hpaths hseen hread =>
      rw [hall] at hsource
      rw [run_resolved hsource hresolved, hpaths, processFiles_append hseen (hsinks.after _ _) rfl,
        processFiles_cons ((hsinks.after _ _).after _ _), hread]
      simp [Session.after_after, requests, hall]
  | unextracted hall hresolved hpaths hseen hread hextract =>
      rw [hall] at hsource
      rw [run_resolved hsource hresolved, hpaths, processFiles_append hseen (hsinks.after _ _) rfl,
        processFiles_cons ((hsinks.after _ _).after _ _), hread]
      simp [Session.after_after, requests, hall, Config.judge, hextract]
  | invalid hall hresolved hpaths hseen hread hextract hcheck =>
      rw [hall] at hsource
      rw [run_resolved hsource hresolved, hpaths, processFiles_append hseen (hsinks.after _ _) rfl,
        processFiles_cons ((hsinks.after _ _).after _ _), hread]
      simp [Session.after_after, requests, hall, Config.judge, hextract, Verdict.ofStatement, hcheck,
        Verdict.ofCheck, recordAll_passed hseen, Outcome.record, passedOutcome, SyntaxError.display]
  | complete hall hresolved hpaths hseen =>
      rw [hall] at hsource
      rw [run_resolved hsource hresolved, hpaths, ← List.append_nil (List.map _ _),
        processFiles_append hseen (hsinks.after _ _) rfl, recordAll_passed hseen, Host.processFiles,
        run_pure]
      simp [Session.after_after, requests, hall, passedOutcome]

/-- **The complete behaviour of a run over files.** A run with patterns and no literal, whose sinks keep all
that is written, ends and acts exactly as its course tells, whatever the files are. -/
theorem run_iff_course [Diagnostics] (hliteral : config.literal = none) (hpatterns : config.patterns ≠ [])
    (hsinks : session.Unbounded) (result : Except Failure Outcome × Session) :
    session.run files config = result ↔ Course files config session result := by
  refine ⟨?_, Course.run_eq hliteral hpatterns hsinks⟩
  rintro rfl
  obtain ⟨result, hcourse⟩ := exists_course session files config
  rw [hcourse.run_eq hliteral hpatterns hsinks]
  exact hcourse

/-- One file is found and cannot be read: both requests are made, and nothing is written. -/
theorem run_iff_course_unread :
    let session : Session := { stdin := ⟨[], none⟩ }
    let files : FileSource := ⟨fun _ => .ok ["a"], fun path => .error (.io path "gone")⟩
    let config : Config := { patterns := ["*"] }
    (config.literal = none ∧ config.patterns ≠ [] ∧ session.Unbounded) ∧
      session.run files config
        = (.error (.io "a" "gone"), session.after [.resolve "*", .read "a"] []) := by
  intro session files config
  refine ⟨⟨rfl, by decide, rfl, rfl⟩, ?_⟩
  refine (run_iff_course rfl (by decide) ⟨rfl, rfl⟩ _).mpr ?_
  exact @Course.unread _ _ _ _ [("*", ["a"])] [] "a" [] _ rfl (by simp [Resolves, files]) rfl
    (by simp [AllPass]) rfl

end Esql
