import Esql.Proofs.Run.Acts

/-!
# `Proofs.Run.Sources` — one input in three ways

The same text can be given to a run as a literal, on the standard input, or in the only file that matches a pattern.
`sources_agree` compares the three runs: they end alike and write the same, but for the name that the input has in each
of them, and none touches what another takes its input from. A literal together with patterns is not a fourth way: that
run ends before it does anything.

All three come down to one input that is judged and reported, so it is enough to say what such a run does as a function
of the name (`Config.ending`, `Config.lines`), and how a name enters into a status line (`statusLine_shown`).

## Contents
- `Stream.Delivers`, what a stream brings.
- The acts of the three runs.
- Texts and ends that are the same but for a name.
- `sources_agree`.
-/

/-! ## Streams -/

namespace Esql.Files

/-- The bytes of chunks, one chunk after the other. -/
def joined (chunks : List ByteArray) : ByteArray := chunks.foldr (· ++ ·) ByteArray.empty

/-- The stream brings these bytes, in any chunks, and then ends. -/
structure Stream.Delivers (stream : Stream) (bytes : ByteArray) : Prop where
  bytes : joined stream.chunks = bytes
  ends : stream.fault = none

/-- To ask for no fewer bytes than there are gives the whole content. -/
theorem extract_of_size_le {content : ByteArray} {n : Nat} (h : content.size ≤ n) :
    content.extract 0 n = content := by
  have hrest : content.extract content.size n = ByteArray.empty :=
    ByteArray.extract_eq_empty_iff.mpr (Nat.min_le_right _ _)
  rw [ByteArray.extract_eq_extract_append_extract content.size (Nat.zero_le _) h, ByteArray.extract_zero_size, hrest,
    ByteArray.append_empty]

theorem extract_nothing (n : Nat) : ByteArray.empty.extract 0 n = ByteArray.empty := extract_of_size_le (Nat.zero_le n)

/-- The first bytes of chunks are those of the content. -/
theorem firstBytes_joined (n : Nat) (chunks : List ByteArray) : firstBytes n chunks = (joined chunks).extract 0 n := by
  induction chunks generalizing n with
  | nil => exact (extract_nothing n).symm
  | cons chunk chunks ih =>
      show firstBytes n (chunk :: chunks) = (chunk ++ joined chunks).extract 0 n
      rw [firstBytes, ByteArray.extract_append, Nat.zero_sub]
      split
      · next hle =>
          have hnone : n - chunk.size = 0 := Nat.sub_eq_zero_of_le hle
          rw [hnone, ByteArray.extract_same, ByteArray.append_empty]
      · next hlt =>
          have hle : chunk.size ≤ n := Nat.le_of_not_le hlt
          rw [extract_of_size_le hle, ih]

/-- Whoever asks for no fewer bytes than there are gets them all. -/
theorem firstBytes_all {chunks : List ByteArray} {n : Nat} (h : (joined chunks).size ≤ n) :
    firstBytes n chunks = joined chunks := by
  rw [firstBytes_joined, extract_of_size_le h]

/-- A text within the limit is taken whole. -/
theorem Stream.Delivers.bounded {stream : Stream} {bytes : ByteArray} (h : stream.Delivers bytes) (input : String)
    {limit : UInt64} (hsize : bytes.size ≤ limit.toNat) :
    Files.bounded input limit (stream.take (bytesToTake limit)) = .ok bytes := by
  have hword : limit.toNat ≤ UInt64.size - 1 := Nat.le_sub_one_of_lt limit.toNat_lt
  have htake : stream.take (bytesToTake limit) = .ok bytes := by
    have hall : (joined stream.chunks).size ≤ bytesToTake limit := by
      rw [h.bytes, bytesToTake]
      omega
    simp only [Stream.take, h.ends, firstBytes_all hall, h.bytes]
  rw [htake, Files.bounded, withinLimit, if_neg (Nat.not_lt.mpr hsize)]

end Esql.Files

namespace Esql

open Esql.Document
open Esql.Files (Stream)
open Esql.Report (Channel Outcome StatusLine Style Verdict statusLine)

/-! ## Runs with one input -/

section
variable (config : Config) (input : String) (content : ByteArray)

/-- The end of a run with one input. -/
def Config.ending [Diagnostics] : Except Failure Outcome :=
  (config.judge input content).map (({} : Outcome).record input)

/-- The status lines of a run with one input: one, unless no verdict is found. -/
def Config.lines [Diagnostics] : List StatusLine :=
  match config.judge input content with
  | .ok verdict => [statusLine config.style input verdict]
  | .error _ => []

variable {config}

theorem process_first [Diagnostics] (files : FileSource) (stdin : Stream) (acts : List Act) :
    ((scribe files stdin).process config {} input content).run.run acts =
      (config.ending input content, acts ++ (config.lines input content).map .write) := by
  rw [process_acts, Config.ending, Config.lines]
  cases config.judge input content with
  | error e => simp [Except.map]
  | ok verdict => rfl

end

variable {config : Config} {files : FileSource} {stdin : Stream} {text : String}

theorem acts_literal [Diagnostics] (hliteral : config.literal = some text) (hpatterns : config.patterns = []) :
    config.acts files stdin =
      (config.ending literalLabel text.toUTF8, (config.lines literalLabel text.toUTF8).map .write) := by
  have hsource : config.source = .ok (.literal text) := by rw [Config.source, hliteral, hpatterns]
  have hrun : config.acts files stdin =
      ((scribe files stdin).process config {} literalLabel text.toUTF8).run.run [] := by
    rw [Config.acts, run, hsource]
    rfl
  rw [hrun, process_first]
  rfl

theorem acts_stdin [Diagnostics] (hliteral : config.literal = none) (hpatterns : config.patterns = [])
    {content : ByteArray} (hstdin : stdin.Delivers content) (hsize : content.size ≤ config.limits.maxFileSize.toNat) :
    config.acts files stdin =
      (config.ending stdinLabel content,
        .take (Files.bytesToTake config.limits.maxFileSize) :: (config.lines stdinLabel content).map .write) := by
  have hsource : config.source = .ok .stdin := by rw [Config.source, hliteral, hpatterns]
  have hrun : config.acts files stdin =
      (do
        let content ← (Files.bounded stdinLabel config.limits.maxFileSize
          (stdin.take (Files.bytesToTake config.limits.maxFileSize)) : Except Failure ByteArray)
        (scribe files stdin).process config {} stdinLabel content :
          ExceptT Failure (StateM (List Act)) Outcome).run.run
        [.take (Files.bytesToTake config.limits.maxFileSize)] := by
    rw [Config.acts, run, hsource]
    rfl
  rw [hrun, run_bind, run_lift, hstdin.bounded stdinLabel hsize]
  exact process_first stdinLabel content files stdin _

theorem acts_file [Diagnostics] (hliteral : config.literal = none) {pattern : String}
    (hpatterns : config.patterns = [pattern]) {path : String} {content : ByteArray}
    (hresolve : files.resolve pattern = .ok [path]) (hread : files.read path = .ok content) :
    config.acts files stdin =
      (config.ending path content,
        .call (.resolve pattern) :: .call (.read path) :: (config.lines path content).map .write) := by
  have hsource : config.source = .ok (.files [pattern]) := by rw [Config.source, hliteral, hpatterns]
  have hrun : config.acts files stdin =
      ((scribe files stdin).processFiles config {} [path]).run.run [.call (.resolve pattern)] := by
    have hcall : (ExceptT.mk ((scribe files stdin).resolve pattern)).run.run [] =
        (.ok [path], [.call (.resolve pattern)]) := by
      rw [← hresolve]
      rfl
    rw [Config.acts, run, hsource]
    show ([pattern].mapM (fun pattern => ExceptT.mk ((scribe files stdin).resolve pattern)) >>= fun paths =>
      (scribe files stdin).processFiles config {} paths.flatten).run.run [] = _
    rw [List.mapM_cons, List.mapM_nil, run_bind, run_bind, hcall]
    rfl
  have hcontent : (ExceptT.mk ((scribe files stdin).read path)).run.run [.call (.resolve pattern)] =
      (.ok content, [.call (.resolve pattern), .call (.read path)]) := by
    rw [← hread]
    rfl
  rw [hrun, Host.processFiles, run_bind, hcontent]
  dsimp only
  rw [run_bind, process_first]
  rcases config.ending path content with e | outcome
  · rfl
  · -- There is no other file, so it does not matter whether this one is invalid.
    dsimp only
    split <;> rfl

/-! ## Names -/

/-- How a name stands in a status line. -/
def Report.Style.shown : Style → String → String
  | .text, input => input
  | .json, input => String.ofList (Json.quoted input)

/-- Two texts are the same but for a name: they are the same pieces with one name or the other between them. -/
def SameBut (name name' text text' : String) : Prop :=
  ∃ pieces : List String, text = name.intercalate pieces ∧ text' = name'.intercalate pieces

/-- The outcome with another name for the input that is invalid. -/
def Report.Outcome.named (outcome : Outcome) (input : String) : Outcome :=
  { outcome with firstFailure := outcome.firstFailure.map fun rejection => { rejection with input } }

/-- Two ends are the same but for the name of the input: no query is found, for the same cause, or the outcomes have
    the same counts and the same reason. -/
inductive SameEnd (input input' : String) : Except Failure Outcome → Except Failure Outcome → Prop where
  | unextracted (cause : ExtractionError) :
      SameEnd input input' (.error (.extraction input cause)) (.error (.extraction input' cause))
  | judged (outcome : Outcome) : SameEnd input input' (.ok (outcome.named input)) (.ok (outcome.named input'))

variable {input input' : String}

/-- Names have no part in the class of an end. -/
theorem SameEnd.exitStatus {one other : Except Failure Outcome} (h : SameEnd input input' one other) :
    exitStatusOf one = exitStatusOf other := by
  cases h with
  | unextracted cause => rfl
  | judged outcome => rfl

theorem ending_same [Diagnostics] (config : Config) (content : ByteArray) (input input' : String) :
    SameEnd input input' (config.ending input content) (config.ending input' content) := by
  have hrecord : ∀ (input : String) (verdict : Verdict),
      ({} : Outcome).record input verdict = (({} : Outcome).record "" verdict).named input := by
    intro input verdict
    cases verdict <;> rfl
  rw [Config.ending, Config.ending, Config.judge, Config.judge]
  cases config.format.extract content with
  | error cause => exact .unextracted cause
  | ok extraction =>
      cases extraction with
      | skip => exact .judged { checked := 1, skipped := 1 }
      | extracted query =>
          show SameEnd input input' (.ok _) (.ok _)
          rw [hrecord input, hrecord input']
          exact .judged _

/-- A status line has one place for the name, and nothing else in it depends on the name. -/
theorem statusLine_shown (style : Style) (verdict : Verdict) :
    ∃ (channel : Channel) (before behind : String), ∀ input,
      statusLine style input verdict = ⟨channel, before ++ style.shown input ++ behind⟩ := by
  cases style with
  | text =>
      cases verdict with
      | valid => exact ⟨.output, "", ": ✓ valid\n", fun input => by rw [String.empty_append]; rfl⟩
      | skipped =>
          exact ⟨.output, "", ": skipped (not an ES|QL detection rule)\n", fun input => by
            rw [String.empty_append]
            rfl⟩
      | invalid line column message =>
          refine ⟨.error, "", ":" ++ toString line ++ ":" ++ toString column ++ ": ✗ "
            ++ Syntax.SyntaxError.sentence line column message ++ "\n", fun input => ?_⟩
          simp [statusLine, StatusLine.plain, Report.Style.shown, String.append_assoc]
  | json =>
      obtain ⟨member, members, hverdict⟩ :
          ∃ member members, StatusLine.verdictMembers verdict = member :: members := by
        cases verdict <;> exact ⟨_, _, rfl⟩
      refine ⟨.output, String.ofList ('\x7b' :: Json.quoted "input" ++ [':']),
        String.ofList (',' :: List.intercalate [','] (StatusLine.verdictMembers verdict) ++ ['\x7d', '\n']),
        fun input => ?_⟩
      have hmembers : '\x7b' ::
            List.intercalate [','] (StatusLine.stringMember "input" input :: StatusLine.verdictMembers verdict) ++
              ['\x7d', '\n'] =
          ('\x7b' :: Json.quoted "input" ++ [':']) ++ Json.quoted input ++
            (',' :: List.intercalate [','] (StatusLine.verdictMembers verdict) ++ ['\x7d', '\n']) := by
        simp [hverdict, StatusLine.stringMember]
      rw [statusLine, StatusLine.object, hmembers, String.ofList_append, String.ofList_append]
      rfl

/-- The lines of two runs with one input are the same but for the name. -/
theorem lines_same [Diagnostics] (config : Config) (content : ByteArray) (input input' : String) (channel : Channel) :
    SameBut (config.style.shown input) (config.style.shown input') (textFor channel (config.lines input content))
      (textFor channel (config.lines input' content)) := by
  have hnothing : SameBut (config.style.shown input) (config.style.shown input') "" "" := ⟨[], rfl, rfl⟩
  have hline : ∀ verdict,
      SameBut (config.style.shown input) (config.style.shown input')
        (textFor channel [statusLine config.style input verdict])
        (textFor channel [statusLine config.style input' verdict]) := by
    intro verdict
    obtain ⟨place, before, behind, hshown⟩ := statusLine_shown config.style verdict
    rw [hshown, hshown]
    by_cases hplace : place = channel
    · exact ⟨[before, behind], by simp [textFor, hplace], by simp [textFor, hplace]⟩
    · simpa [textFor, hplace] using hnothing
  rw [Config.lines, Config.lines, Config.judge, Config.judge]
  cases config.format.extract content with
  | error cause => exact hnothing
  | ok extraction =>
      cases extraction with
      | skip => exact hline .skipped
      | extracted query => exact hline (.ofStatement query)

/-! ## Three runs -/

/-- Two runs in the same session, each with the name of its input, end alike and write the same but for the name. -/
structure Alike (style : Style) (session : Session) (one other : String × (Except Failure Outcome × Session)) :
    Prop where
  ends : SameEnd one.1 other.1 one.2.1 other.2.1
  code : (exitStatusOf one.2.1).code = (exitStatusOf other.2.1).code
  writes : ∀ channel, ∃ text text', SameBut (style.shown one.1) (style.shown other.1) text text' ∧
    (one.2.2.sink channel).kept = (session.sink channel).kept ++ text.toUTF8 ∧
    (other.2.2.sink channel).kept = (session.sink channel).kept ++ text'.toUTF8

/-- What runs ask for before they report makes no difference, if no sink refuses. -/
theorem alike_enact [Diagnostics] {session : Session} (hsinks : session.Unbounded) (config : Config)
    (content : ByteArray) {asks asks' : List Act} (hasks : Session.written asks = [])
    (hasks' : Session.written asks' = []) (input input' : String) :
    Alike config.style session
      (input, session.enact (asks ++ (config.lines input content).map .write) (config.ending input content))
      (input', session.enact (asks' ++ (config.lines input' content).map .write) (config.ending input' content)) := by
  have hsame := ending_same config content input input'
  have hkept : ∀ {asks : List Act} (lines : List StatusLine) (channel : Channel), Session.written asks = [] →
      ((session.didAll (asks ++ lines.map .write)).sink channel).kept =
        (session.sink channel).kept ++ (textFor channel lines).toUTF8 := by
    intro asks lines channel hasks
    rw [Session.kept_didAll, Session.written_append, hasks, Session.written_write, List.nil_append]
  rw [Session.enact_unbounded hsinks, Session.enact_unbounded hsinks]
  exact ⟨hsame, congrArg ExitStatus.code hsame.exitStatus, fun channel =>
    ⟨_, _, lines_same config content input input' channel, hkept _ channel hasks, hkept _ channel hasks'⟩⟩

/-- **One input in three ways.** A text is given as a literal, on the standard input, or in the only file that matches
    a pattern. Unless a sink refuses a line, the three runs end alike and write the same, but for the name of the
    input; and whatever the sinks do, the first asks for no file and takes no byte of the standard input, the second
    asks for no file, and the third takes no byte. A literal together with patterns is refused, and nothing is done. -/
theorem sources_agree [Diagnostics] {config : Config} {text pattern path : String} {session : Session}
    {files : FileSource} (hsize : text.toUTF8.size ≤ config.limits.maxFileSize.toNat)
    (hstdin : session.stdin.Delivers text.toUTF8) (hresolve : files.resolve pattern = .ok [path])
    (hread : files.read path = .ok text.toUTF8) :
    let byLiteral := session.run files { config with literal := some text, patterns := [] }
    let byStdin := session.run files { config with literal := none, patterns := [] }
    let byFile := session.run files { config with literal := none, patterns := [pattern] }
    (session.Unbounded →
      let runs := [(literalLabel, byLiteral), (stdinLabel, byStdin), (path, byFile)]
      ∀ one ∈ runs, ∀ other ∈ runs, Alike config.style session one other) ∧
    (byLiteral.2.calls = session.calls ∧ byLiteral.2.taken = session.taken) ∧
    byStdin.2.calls = session.calls ∧ byFile.2.taken = session.taken ∧
    ∀ (session : Session) (files : FileSource) (config : Config) (literal pattern : String) (patterns : List String),
      config.literal = some literal → config.patterns = pattern :: patterns →
        session.run files config = (.error (.ambiguous literal), session) := by
  intro byLiteral byStdin byFile
  have hliteral : byLiteral =
      session.enact ([] ++ (config.lines literalLabel text.toUTF8).map .write)
        (config.ending literalLabel text.toUTF8) := run_of_acts (acts_literal rfl rfl)
  have hbyStdin : byStdin =
      session.enact
        ([.take (Files.bytesToTake config.limits.maxFileSize)] ++ (config.lines stdinLabel text.toUTF8).map .write)
        (config.ending stdinLabel text.toUTF8) := run_of_acts (acts_stdin rfl rfl hstdin hsize)
  have hbyFile : byFile =
      session.enact ([.call (.resolve pattern), .call (.read path)] ++ (config.lines path text.toUTF8).map .write)
        (config.ending path text.toUTF8) := run_of_acts (acts_file rfl rfl hresolve hread)
  refine ⟨?_, ⟨?_, ?_⟩, ?_, ?_, ?_⟩
  · intro hsinks runs
    have hruns : ∀ one ∈ runs, ∃ asks, Session.written asks = [] ∧
        one.2 = session.enact (asks ++ (config.lines one.1 text.toUTF8).map .write)
          (config.ending one.1 text.toUTF8) := by
      simp only [runs, List.forall_mem_cons, List.not_mem_nil, false_implies, implies_true, and_true]
      exact ⟨⟨_, rfl, hliteral⟩, ⟨_, rfl, hbyStdin⟩, ⟨_, rfl, hbyFile⟩⟩
    intro one hone other hother
    obtain ⟨asks, hasks, hrun⟩ := hruns one hone
    obtain ⟨asks', hasks', hrun'⟩ := hruns other hother
    have halike := alike_enact hsinks config text.toUTF8 hasks hasks' one.1 other.1
    rw [← hrun, ← hrun'] at halike
    exact halike
  · rw [hliteral, Session.enact_session]
    exact Session.perform_calls (by simp) session
  · rw [hliteral, Session.enact_session]
    exact Session.perform_taken (by simp) session
  · rw [hbyStdin, Session.enact_session]
    exact Session.perform_calls (by simp) session
  · rw [hbyFile, Session.enact_session]
    exact Session.perform_taken (by simp) session
  · intro session files config literal pattern patterns hliteral hpatterns
    have hsource : config.source = .error (.ambiguous literal) := by rw [Config.source, hliteral, hpatterns]
    rw [Session.run, run, hsource]
    rfl

/-- A text that is just within the limit arrives in two chunks, or in a file whose name is escaped. -/
theorem sources_agree_escapedPath :
    let text := "FROM a |"
    let path := "b\"\n.q"
    let config : Config := { style := .json, limits := { maxFileSize := 8 } }
    let session : Session := { stdin := ⟨["FROM".toUTF8, " a |".toUTF8], none⟩ }
    let files : FileSource := ⟨fun _ => .ok [path], fun _ => .ok text.toUTF8⟩
    (text.toUTF8.size ≤ config.limits.maxFileSize.toNat ∧ session.stdin.Delivers text.toUTF8 ∧
        files.resolve "*" = .ok [path] ∧ files.read path = .ok text.toUTF8 ∧ session.Unbounded) ∧
      Alike .json session (stdinLabel, session.run files config)
        (path, session.run files { config with patterns := ["*"] }) := by
  intro text path config session files
  have hsize : text.toUTF8.size ≤ config.limits.maxFileSize.toNat := by decide
  have hstdin : session.stdin.Delivers text.toUTF8 := ⟨by decide, rfl⟩
  have hresolve : files.resolve "*" = .ok [path] := rfl
  have hread : files.read path = .ok text.toUTF8 := rfl
  have hsinks : session.Unbounded := ⟨rfl, rfl⟩
  refine ⟨⟨hsize, hstdin, hresolve, hread, hsinks⟩, ?_⟩
  obtain ⟨halike, -⟩ := sources_agree hsize hstdin hresolve hread
  exact halike hsinks _ (.tail _ (.head _)) _ (.tail _ (.tail _ (.head _)))

end Esql
