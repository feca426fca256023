import Esql.Proofs.Run.Acts

/-!
# `Proofs.Run.Truncation` — a full sink only cuts a run short

Of two runs that differ only in how much their sinks keep, the one with the smaller sinks does nothing that the other
does not do. `run_truncated` compares a run with the run whose sinks keep everything: it makes the same requests and
writes the same bytes up to the first line that does not fit, and there it ends, with as much of that line as fits.

What makes this a matter of acts is `run_enacts`: both runs perform the same acts. So the question is only what a
session with limits does with a row of acts, and `perform_or_refuse` answers it by induction.

## Contents
- Sinks with and without room for a text.
- `Session.Begins`, a session that is not as far as another.
- Acts that are all performed, and the first line that is refused.
- `run_truncated`.
-/

namespace Esql

open Esql.Files (Stream)
open Esql.Report (Channel Outcome StatusLine)

/-! ## Sinks -/

namespace Sink

/-- The sink has not been given more than it can keep. -/
def Holds (sink : Sink) : Prop :=
  ∀ capacity refusal, sink.limit = some (capacity, refusal) → sink.kept.size ≤ capacity

/-- The sink with all limits taken away. -/
def unlimited (sink : Sink) : Sink := { sink with limit := none }

variable {sink : Sink} {text : String}

theorem write_of_holds (h : (sink.keep text).Holds) : sink.write text = (.ok (), sink.keep text) := by
  obtain ⟨kept, limit⟩ := sink
  cases limit with
  | none => rfl
  | some limit =>
      obtain ⟨capacity, refusal⟩ := limit
      have hroom : (kept ++ text.toUTF8).size ≤ capacity := h capacity refusal rfl
      rw [write]
      exact if_pos hroom

/-- Of a text for which there is no room, the part is kept that there is room for. -/
theorem write_of_not_holds (h : ¬ (sink.keep text).Holds) :
    ∃ (refusal : String) (after : Sink), sink.write text = (.error refusal, after) ∧ after.limit = sink.limit ∧
      after.Holds ∧ ∃ lost, (sink.keep text).kept = after.kept ++ lost := by
  obtain ⟨kept, limit⟩ := sink
  cases limit with
  | none => exact absurd (fun _ _ hlimit => nomatch hlimit) h
  | some limit =>
      obtain ⟨capacity, refusal⟩ := limit
      have hfull : ¬ (kept ++ text.toUTF8).size ≤ capacity := by
        intro hroom
        refine h fun capacity' refusal' hlimit => ?_
        cases hlimit
        exact hroom
      refine ⟨refusal, ⟨(kept ++ text.toUTF8).extract 0 capacity, some (capacity, refusal)⟩, ?_, rfl, ?_,
        (kept ++ text.toUTF8).extract capacity (kept ++ text.toUTF8).size, ?_⟩
      · rw [write]
        exact if_neg hfull
      · intro capacity' refusal' hlimit
        cases hlimit
        rw [ByteArray.size_extract]
        omega
      · rw [ByteArray.extract_append_extract, Nat.min_eq_left (Nat.zero_le _), Nat.max_eq_right (by omega),
          ByteArray.extract_zero_size]
        rfl

end Sink

namespace Session

/-- No sink has been given more than it can keep. -/
def Holds (session : Session) : Prop := ∀ channel, (session.sink channel).Holds

/-- The session with sinks that keep everything. -/
def unlimited (session : Session) : Session :=
  { session with output := session.output.unlimited, error := session.error.unlimited }

variable {session : Session}

theorem sink_unlimited (session : Session) (channel : Channel) :
    session.unlimited.sink channel = (session.sink channel).unlimited := by
  cases channel <;> rfl

theorem Holds.of_same {session' : Session} (h : session.Holds)
    (hsame : ∀ channel, session'.sink channel = session.sink channel) : session'.Holds := by
  intro channel
  rw [hsame]
  exact h channel

/-- A session that changes one sink holds if that sink does. -/
theorem Holds.withSink (h : session.Holds) {channel : Channel} {sink : Sink} (hsink : sink.Holds) :
    (session.withSink channel sink).Holds := by
  intro channel'
  rw [sink_withSink]
  split
  · exact hsink
  · exact h channel'

/-! ## Sessions that are not as far as others -/

/-- The session has made the first of the requests of another, and its sinks have kept the first of the bytes. -/
structure Begins (session session' : Session) : Prop where
  calls : session.calls <+: session'.calls
  kept : ∀ channel, ∃ more, (session'.sink channel).kept = (session.sink channel).kept ++ more

theorem Begins.refl (session : Session) : session.Begins session :=
  ⟨List.prefix_refl _, fun _ => ⟨ByteArray.empty, by simp⟩⟩

theorem Begins.trans {a b c : Session} (hab : a.Begins b) (hbc : b.Begins c) : a.Begins c := by
  refine ⟨hab.calls.trans hbc.calls, fun channel => ?_⟩
  obtain ⟨more, hmore⟩ := hab.kept channel
  obtain ⟨more', hmore'⟩ := hbc.kept channel
  exact ⟨more ++ more', by rw [hmore', hmore, ByteArray.append_assoc]⟩

theorem begins_withSink {channel : Channel} {sink : Sink} (h : ∃ more, sink.kept = (session.sink channel).kept ++ more) :
    session.Begins (session.withSink channel sink) := by
  refine ⟨?_, fun channel' => ?_⟩
  · cases channel <;> exact List.prefix_refl _
  · rw [sink_withSink]
    split
    · next heq => exact heq ▸ h
    · exact ⟨ByteArray.empty, by simp⟩

theorem begins_did (session : Session) (act : Act) : session.Begins (session.did act) := by
  cases act with
  | call call =>
      exact ⟨List.prefix_append _ _, fun channel => ⟨ByteArray.empty, by cases channel <;> simp [did, log, sink]⟩⟩
  | take n => exact ⟨List.prefix_refl _, fun channel => ⟨ByteArray.empty, by cases channel <;> simp [did, sink]⟩⟩
  | write line => exact begins_withSink ⟨line.text.toUTF8, rfl⟩

/-- More acts lead further. -/
theorem begins_didAll (session : Session) (acts : List Act) : session.Begins (session.didAll acts) := by
  induction acts generalizing session with
  | nil => exact Begins.refl session
  | cons act acts ih => exact (begins_did session act).trans (ih (session.did act))

theorem begins_unlimited {session session' : Session} (h : session.Begins session') :
    session.Begins session'.unlimited := by
  refine ⟨h.calls, fun channel => ?_⟩
  rw [sink_unlimited]
  exact h.kept channel

theorem did_unlimited (session : Session) (act : Act) : session.unlimited.did act = (session.did act).unlimited := by
  cases act with
  | call | take => rfl
  | write line =>
      obtain ⟨channel, text⟩ := line
      cases channel <;> rfl

theorem didAll_unlimited (session : Session) (acts : List Act) :
    session.unlimited.didAll acts = (session.didAll acts).unlimited := by
  induction acts generalizing session with
  | nil => rfl
  | cons act acts ih =>
      have hrest := ih (session.did act)
      rw [← did_unlimited] at hrest
      exact hrest

/-! ## Rows of acts -/

/-- `Refuses session done line reason after`: in the session there is room for the lines among the acts `done`, but none
    for the line behind them; it is refused, and with the part of it that there is room for the session is `after`. -/
structure Refuses (session : Session) (done : List Act) (line : StatusLine) (reason : String) (after : Session) :
    Prop where
  room : (session.didAll done).Holds
  full : ¬ (session.didAll (done ++ [.write line])).Holds
  written : (session.didAll done).write line.channel line.text = (.error reason, after)

/-- A line is kept whole, or its sink refuses it. -/
theorem write_or_refuse (hroom : session.Holds) (line : StatusLine) :
    ((session.did (.write line)).Holds ∧
      session.write line.channel line.text = (.ok (), session.did (.write line))) ∨
    ∃ reason after, session.Refuses [] line reason after := by
  by_cases hkeep : ((session.sink line.channel).keep line.text).Holds
  · refine .inl ⟨hroom.withSink hkeep, ?_⟩
    rw [write_eq, Sink.write_of_holds hkeep]
    rfl
  · obtain ⟨reason, sink, hwrite, -⟩ := Sink.write_of_not_holds hkeep
    refine .inr ⟨reason, session.withSink line.channel sink, hroom, fun hfull => hkeep ?_, ?_⟩
    · have hsink := hfull line.channel
      rw [List.nil_append, didAll, List.foldl_cons, List.foldl_nil, did, sink_withSink, if_pos rfl] at hsink
      exact hsink
    · rw [didAll, List.foldl_nil, write_eq, hwrite]

/-- A session that refuses a line has asked for nothing more, and its sinks have kept no more than with that line. -/
theorem Refuses.begins {done : List Act} {line : StatusLine} {reason : String} {after : Session}
    (h : session.Refuses done line reason after) :
    after.calls = (session.didAll done).calls ∧ after.Begins (session.didAll (done ++ [.write line])) ∧
      ∀ channel, (after.sink channel).limit = (session.sink channel).limit ∧ (after.sink channel).Holds := by
  obtain ⟨hroom, hfull, hwritten⟩ := h
  rw [didAll_append] at hfull ⊢
  have hlimit := didAll_limit session done
  generalize session.didAll done = reached at hroom hfull hwritten hlimit ⊢
  have hkeep : ¬ ((reached.sink line.channel).keep line.text).Holds := fun hkeep => hfull (hroom.withSink hkeep)
  obtain ⟨refusal, sink, hwrite, hsame, hholds, lost, hlost⟩ := Sink.write_of_not_holds hkeep
  have hafter : after = reached.withSink line.channel sink := by
    rw [write_eq, hwrite] at hwritten
    exact (Prod.mk.inj hwritten).2.symm
  have hcalls : ∀ other : Sink, (reached.withSink line.channel other).calls = reached.calls := by
    intro other
    cases line.channel <;> rfl
  refine ⟨hafter ▸ hcalls sink, ⟨?_, fun channel => ?_⟩, fun channel => ?_⟩
  · have hasked : (reached.did (.write line)).calls = after.calls := by
      rw [hafter, did, hcalls, hcalls]
    show after.calls <+: (reached.did (.write line)).calls
    exact hasked ▸ List.prefix_refl _
  · show ∃ more, ((reached.withSink line.channel _).sink channel).kept = _
    rw [hafter, sink_withSink, sink_withSink]
    split
    · exact ⟨lost, hlost⟩
    · exact ⟨ByteArray.empty, ByteArray.append_empty.symm⟩
  · rw [hafter, sink_withSink]
    split
    · next heq => exact ⟨hsame.trans (heq ▸ hlimit line.channel), hholds⟩
    · exact ⟨hlimit channel, hroom channel⟩

/-- By induction on the acts: all are performed, or there is a first line that is refused. -/
theorem perform_or_refuse (hroom : session.Holds) (acts : List Act) :
    ((session.didAll acts).Holds ∧ session.perform acts = (.ok (), session.didAll acts)) ∨
    ∃ done line others reason after, acts = done ++ .write line :: others ∧
      session.Refuses done line reason after ∧ session.perform acts = (.error reason, after) := by
  induction acts generalizing session with
  | nil => exact .inl ⟨hroom, rfl⟩
  | cons act acts ih =>
      -- An act that is done is put in front of those that follow.
      have hgoes : (session.did act).Holds → session.perform (act :: acts) = (session.did act).perform acts →
          ((session.didAll (act :: acts)).Holds ∧
            session.perform (act :: acts) = (.ok (), session.didAll (act :: acts))) ∨
          ∃ done line others reason after, act :: acts = done ++ .write line :: others ∧
            session.Refuses done line reason after ∧ session.perform (act :: acts) = (.error reason, after) := by
        intro hholds hperform
        rw [hperform]
        obtain hall | ⟨done, line, others, reason, after, rfl, hrefuses, hend⟩ := ih hholds
        · exact .inl hall
        · exact .inr ⟨act :: done, line, others, reason, after, rfl,
            ⟨hrefuses.room, hrefuses.full, hrefuses.written⟩, hend⟩
      cases act with
      | call call => exact hgoes (hroom.of_same fun channel => by cases channel <;> rfl) rfl
      | take n => exact hgoes (hroom.of_same fun channel => by cases channel <;> rfl) rfl
      | write line =>
          obtain ⟨hholds, hwrite⟩ | ⟨reason, after, hrefuses⟩ := write_or_refuse hroom line
          · refine hgoes hholds ?_
            rw [perform, hwrite]
          · refine .inr ⟨[], line, acts, reason, after, rfl, hrefuses, ?_⟩
            have hwritten : session.write line.channel line.text = (.error reason, after) := hrefuses.written
            rw [perform, hwritten]

end Session

/-! ## Runs -/

/-- **A full sink only cuts a run short.** A run is compared with the run whose sinks keep everything, and which performs
    all its acts. The run makes the first of the same requests, and its sinks keep the first of the same bytes, no more
    than they can. The two end alike, or the run fails, with the class of failures that nothing else belongs to, at the
    first line for which there is no room: what it has asked for until then is all that it asks for. -/
theorem run_truncated [Diagnostics] {session : Session} (hroom : session.Holds) (files : FileSource) (config : Config) :
    let acts := (config.acts files session.stdin).2
    let full := session.unlimited.run files config
    let cut := session.run files config
    full.2 = (session.didAll acts).unlimited ∧ cut.2.calls <+: full.2.calls ∧
      (∀ channel,
        (∃ lost, (full.2.sink channel).kept = (cut.2.sink channel).kept ++ lost) ∧
        ∀ capacity refusal, (session.sink channel).limit = some (capacity, refusal) →
          (cut.2.sink channel).kept.size ≤ capacity) ∧
      (cut.1 = full.1 ∧ cut.2.unlimited = full.2 ∨
        ∃ done line others reason, acts = done ++ .write line :: others ∧
          session.Refuses done line reason cut.2 ∧ cut.1 = .error (.unexpected reason) ∧
          exitStatusOf cut.1 = .unexpectedError ∧ (exitStatusOf cut.1).code = 99 ∧
          cut.2.calls = (session.didAll done).calls) := by
  intro acts full cut
  have hfull : full = ((config.acts files session.stdin).1, (session.didAll acts).unlimited) := by
    have hrun : full = session.unlimited.enact acts (config.acts files session.stdin).1 := run_enacts _ files config
    rw [hrun, Session.enact_unbounded ⟨rfl, rfl⟩, Session.didAll_unlimited]
  have hcut : cut = session.enact acts (config.acts files session.stdin).1 := run_enacts session files config
  -- Whether a line is refused or not, the run is not further than all its acts lead.
  have hconclude (hbegins : cut.2.Begins (session.didAll acts))
      (hsinks : ∀ channel, (cut.2.sink channel).limit = (session.sink channel).limit ∧ (cut.2.sink channel).Holds) :
      full.2 = (session.didAll acts).unlimited ∧ cut.2.calls <+: full.2.calls ∧
        ∀ channel,
          (∃ lost, (full.2.sink channel).kept = (cut.2.sink channel).kept ++ lost) ∧
          ∀ capacity refusal, (session.sink channel).limit = some (capacity, refusal) →
            (cut.2.sink channel).kept.size ≤ capacity := by
    have hunlimited := Session.begins_unlimited hbegins
    rw [hfull]
    refine ⟨rfl, hunlimited.calls, fun channel => ⟨hunlimited.kept channel, fun capacity refusal hlimit => ?_⟩⟩
    obtain ⟨hsame, hholds⟩ := hsinks channel
    exact hholds capacity refusal (hsame.trans hlimit)
  obtain ⟨hholds, hperform⟩ | ⟨done, line, others, reason, after, hacts, hrefuses, hperform⟩ :=
    Session.perform_or_refuse hroom acts
  · have hend : cut = ((config.acts files session.stdin).1, session.didAll acts) := by
      rw [hcut, Session.enact, hperform]
    have hsinks : ∀ channel,
        (cut.2.sink channel).limit = (session.sink channel).limit ∧ (cut.2.sink channel).Holds := by
      rw [hend]
      exact fun channel => ⟨Session.didAll_limit session acts channel, hholds channel⟩
    have hbegins : cut.2.Begins (session.didAll acts) := by
      rw [hend]
      exact Session.Begins.refl _
    obtain ⟨hdone, hcalls, hkept⟩ := hconclude hbegins hsinks
    exact ⟨hdone, hcalls, hkept, .inl ⟨by rw [hend, hfull], by rw [hend, hfull]⟩⟩
  · have hend : cut = (.error (.unexpected reason), after) := by
      rw [hcut, Session.enact, hperform]
    obtain ⟨hasked, hless, hsinks⟩ := hrefuses.begins
    have hbegins : cut.2.Begins (session.didAll acts) := by
      have hmore := Session.begins_didAll (session.didAll (done ++ [.write line])) others
      rw [← Session.didAll_append, List.append_assoc, List.singleton_append, ← hacts] at hmore
      rw [hend]
      exact hless.trans hmore
    obtain ⟨hdone, hcalls, hkept⟩ := hconclude hbegins (by rw [hend]; exact hsinks)
    refine ⟨hdone, hcalls, hkept, .inr ⟨done, line, others, reason, hacts, ?_⟩⟩
    rw [hend]
    exact ⟨hrefuses, rfl, rfl, rfl, hasked⟩

/-- An output that keeps three bytes: a run on a literal fails at its only line, and nothing is asked for. -/
theorem run_truncated_threeBytes :
    let session : Session := { stdin := ⟨[], none⟩, output := { limit := some (3, "sink full") } }
    let files : FileSource := ⟨fun _ => .ok [], fun path => .error (.io path "gone")⟩
    let config : Config := { literal := some "show info" }
    session.Holds ∧
      ∃ done line others reason, (config.acts files session.stdin).2 = done ++ .write line :: others ∧
        session.Refuses done line reason (session.run files config).2 ∧
        exitStatusOf (session.run files config).1 = .unexpectedError := by
  intro session files config
  have hholds : session.Holds := by
    intro channel capacity refusal hlimit
    cases channel with
    | output =>
        cases hlimit
        exact Nat.zero_le 3
    | error => cases hlimit
  refine ⟨hholds, ?_⟩
  obtain ⟨-, -, -, ⟨hsame, -⟩ | ⟨done, line, others, reason, hacts, hrefuses, -, hstatus, -⟩⟩ :=
    run_truncated hholds files config
  · have hcut : (session.run files config).1 = .error (.unexpected "sink full") := by rfl
    have hfull : (session.unlimited.run files config).1.isOk = true := by rfl
    rw [← hsame, hcut] at hfull
    cases hfull
  · exact ⟨done, line, others, reason, hacts, hrefuses, hstatus⟩

end Esql
