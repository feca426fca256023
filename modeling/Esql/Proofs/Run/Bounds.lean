import Esql.Proofs.Run.Disk

/-!
# `Proofs.Run.Bounds` — a source that is read within a limit

A reader asks a source for bytes until it has one more than the limit. `Pulls` says what happens on the way: the bytes
come in pieces of any sizes, and only a reader that still wants some when nothing is left meets the end or the fault
of the source. Neither the pieces nor the chunks of a stream have a part in what the reader gets: it is a first part of
the content (`Pulls.outcome`, `firstBytes_joined`).

So there are three answers, told apart by the size of the content and by how the source ends (`readStream_eq`). A run
over the standard input goes on only with the whole content, and one that is refused ends there (`run_refused`).

## Contents
- `Pulls`, and what a reader gets.
- How many bytes are asked for.
- The three answers.
- A run whose standard input is refused.
-/

namespace Esql.Files

/-! ## A reader at work -/

/-- `Pulls fault rest wanted got taken answer`: the reader has `got` and asks for `wanted` bytes more of a source whose
    remaining bytes are `rest`, and that then ends, or fails with a fault. Altogether it takes `taken`, and it is told
    `answer`. -/
inductive Pulls (fault : Option String) : ByteArray → Nat → ByteArray → ByteArray → Except String ByteArray → Prop
  /-- A reader that has all it wants asks for nothing, so it does not learn how the source ends. -/
  | enough {rest got : ByteArray} : Pulls fault rest 0 got got (.ok got)
  | piece {piece rest got taken : ByteArray} {wanted : Nat} {answer : Except String ByteArray} :
      piece ≠ .empty → piece.size ≤ wanted → Pulls fault rest (wanted - piece.size) (got ++ piece) taken answer →
      Pulls fault (piece ++ rest) wanted got taken answer
  | ends {got : ByteArray} {wanted : Nat} : wanted ≠ 0 → fault = none → Pulls fault .empty wanted got got (.ok got)
  | fails {got : ByteArray} {wanted : Nat} {reason : String} : wanted ≠ 0 → fault = some reason →
      Pulls fault .empty wanted got got (.error reason)

/-- What a reader is told that takes these bytes of a content. -/
def told (fault : Option String) (content : ByteArray) (wanted : Nat) (taken : ByteArray) : Except String ByteArray :=
  match fault with
  | some reason => if content.size < wanted then .error reason else .ok taken
  | none => .ok taken

variable {fault : Option String} {rest got taken : ByteArray} {wanted : Nat} {answer : Except String ByteArray}

/-- **Pieces make no difference.** By induction on the reading: whatever the pieces, the reader takes a first part of
    what is left, and it meets a fault just if it wants more than that. -/
theorem Pulls.outcome (h : Pulls fault rest wanted got taken answer) :
    taken = got ++ rest.extract 0 wanted ∧ answer = told fault rest wanted taken := by
  induction h with
  | enough =>
      constructor
      · rw [ByteArray.extract_same, ByteArray.append_empty]
      · cases fault <;> simp [told]
  | @piece piece rest got taken wanted answer hsome hsize hrest ih =>
      obtain ⟨htaken, hanswer⟩ := ih
      constructor
      · rw [htaken, ByteArray.extract_append, extract_of_size_le hsize, Nat.zero_sub, ByteArray.append_assoc]
      · rw [hanswer]
        cases fault with
        | none => rfl
        | some reason =>
            have hshort : rest.size < wanted - piece.size ↔ (piece ++ rest).size < wanted := by
              rw [ByteArray.size_append]
              omega
            simp only [told, hshort]
  | @ends got wanted hwanted hfault =>
      subst hfault
      rw [extract_nothing, ByteArray.append_empty]
      exact ⟨rfl, rfl⟩
  | @fails got wanted reason hwanted hfault =>
      subst hfault
      rw [extract_nothing, ByteArray.append_empty]
      have hshort : ByteArray.empty.size < wanted := Nat.pos_of_ne_zero hwanted
      exact ⟨rfl, (if_pos hshort).symm⟩

/-- A reader is never stuck: the chunks of a stream, the last of them cut where the reader has all it wants, are pieces
    that it can get. -/
theorem exists_pulls (fault : Option String) (chunks : List ByteArray) (got : ByteArray) (wanted : Nat) :
    ∃ taken answer, Pulls fault (joined chunks) wanted got taken answer := by
  induction chunks generalizing got wanted with
  | nil =>
      by_cases hwanted : wanted = 0
      · subst hwanted
        exact ⟨got, .ok got, .enough⟩
      · cases fault with
        | none => exact ⟨got, .ok got, .ends hwanted rfl⟩
        | some reason => exact ⟨got, .error reason, .fails hwanted rfl⟩
  | cons chunk chunks ih =>
      show ∃ taken answer, Pulls fault (chunk ++ joined chunks) wanted got taken answer
      by_cases hempty : chunk = .empty
      · rw [hempty, ByteArray.empty_append]
        exact ih got wanted
      · by_cases hsize : chunk.size ≤ wanted
        · obtain ⟨taken, answer, hpulls⟩ := ih (got ++ chunk) (wanted - chunk.size)
          exact ⟨taken, answer, .piece hempty hsize hpulls⟩
        · by_cases hwanted : wanted = 0
          · subst hwanted
            exact ⟨got, .ok got, .enough⟩
          · have hle : wanted ≤ chunk.size := Nat.le_of_not_le hsize
            have hpart : (chunk.extract 0 wanted).size = wanted := by
              rw [ByteArray.size_extract]
              omega
            have hsome : chunk.extract 0 wanted ≠ .empty := by
              intro h
              rw [h] at hpart
              exact hwanted hpart.symm
            have hcut : chunk = chunk.extract 0 wanted ++ chunk.extract wanted chunk.size := by
              rw [← ByteArray.extract_eq_extract_append_extract wanted (Nat.zero_le _) hle,
                ByteArray.extract_zero_size]
            have hpiece : Pulls fault (chunk.extract 0 wanted ++ (chunk.extract wanted chunk.size ++ joined chunks))
                wanted got (got ++ chunk.extract 0 wanted) (.ok (got ++ chunk.extract 0 wanted)) := by
              refine .piece hsome hpart.le ?_
              rw [hpart, Nat.sub_self]
              exact .enough
            rw [← ByteArray.append_assoc, ← hcut] at hpiece
            exact ⟨_, _, hpiece⟩

variable {stream : Stream} {limit : UInt64}

/-- A stream gives the same answer to whoever reads it in pieces. -/
theorem Pulls.take_eq {chunks : List ByteArray} (h : Pulls fault (joined chunks) wanted .empty taken answer) :
    taken = firstBytes wanted chunks ∧ answer = Stream.take ⟨chunks, fault⟩ wanted := by
  obtain ⟨htaken, hanswer⟩ := h.outcome
  rw [ByteArray.empty_append, ← firstBytes_joined] at htaken
  refine ⟨htaken, ?_⟩
  rw [hanswer, htaken]
  cases fault with
  | none => rfl
  | some reason =>
      have hshort : (firstBytes wanted chunks).size < wanted ↔ (joined chunks).size < wanted := by
        rw [firstBytes_joined, ByteArray.size_extract]
        omega
      simp only [told, Stream.take, hshort]

/-! ## How many bytes are asked for -/

/-- The number of bytes that are asked for is one more than the limit, or the limit itself if it is the last word: it is
    found without going round. -/
theorem bytesToTake_eq (limit : UInt64) :
    bytesToTake limit = if limit.toNat + 1 < UInt64.size then (limit + 1).toNat else limit.toNat := by
  have hlimit := limit.toNat_lt
  have hwords : UInt64.size = 2 ^ 64 := rfl
  rw [bytesToTake]
  split
  · next hlt =>
      rw [UInt64.toNat_add, UInt64.toNat_one, Nat.mod_eq_of_lt (by omega)]
      omega
  · next hlast => omega

/-! ## The three answers -/

/-- What is made of a stream: its content is too large, or else it is the answer unless the stream fails. -/
theorem readStream_eq (input : String) (hsize : (joined stream.chunks).size < UInt64.size - 1) :
    readStream stream input limit =
      if limit.toNat < (joined stream.chunks).size then .error (.tooLarge input limit)
      else match stream.fault with
        | some reason => .error (.io input reason)
        | none => .ok (joined stream.chunks) := by
  have hlimit := limit.toNat_lt
  have hwords : UInt64.size = 2 ^ 64 := rfl
  have hwanted : bytesToTake limit = min (limit.toNat + 1) (UInt64.size - 1) := rfl
  have htaken : firstBytes (bytesToTake limit) stream.chunks = (joined stream.chunks).extract 0 (bytesToTake limit) :=
    firstBytes_joined _ _
  have hwithin : withinLimit input limit ((joined stream.chunks).extract 0 (bytesToTake limit)) =
      if limit.toNat < (joined stream.chunks).size then .error (.tooLarge input limit)
      else .ok (joined stream.chunks) := withinLimit_taken (.inl (by omega))
  -- A fault is met just if the content is not too large.
  have hshort : ((joined stream.chunks).extract 0 (bytesToTake limit)).size < bytesToTake limit ↔
      ¬limit.toNat < (joined stream.chunks).size := by
    rw [ByteArray.size_extract]
    omega
  rw [readStream, Stream.take, htaken]
  cases hfault : stream.fault with
  | none => exact hwithin
  | some reason =>
      simp only [hshort]
      by_cases hlarge : limit.toNat < (joined stream.chunks).size
      · rw [if_pos hlarge, if_neg (not_not.mpr hlarge)]
        rw [if_pos hlarge] at hwithin
        exact hwithin
      · rw [if_neg hlarge, if_pos hlarge]
        rfl

section
variable (input : String) (hsize : (joined stream.chunks).size < UInt64.size - 1)
include hsize

theorem readStream_tooLarge_iff :
    readStream stream input limit = .error (.tooLarge input limit) ↔ limit.toNat < (joined stream.chunks).size := by
  rw [readStream_eq input hsize]
  by_cases hlarge : limit.toNat < (joined stream.chunks).size
  · simp [hlarge]
  · rw [if_neg hlarge]
    cases stream.fault <;> simp [hlarge]

theorem readStream_ok_iff (bytes : ByteArray) :
    readStream stream input limit = .ok bytes ↔
      bytes = joined stream.chunks ∧ (joined stream.chunks).size ≤ limit.toNat ∧ stream.fault = none := by
  rw [readStream_eq input hsize]
  by_cases hlarge : limit.toNat < (joined stream.chunks).size
  · simp [hlarge, Nat.not_le.mpr hlarge]
  · rw [if_neg hlarge]
    cases stream.fault with
    | some reason => simp
    | none =>
        have hle : (joined stream.chunks).size ≤ limit.toNat := Nat.le_of_not_lt hlarge
        simp only [Except.ok.injEq, hle, and_true]
        exact eq_comm

theorem readStream_io_iff (reason : String) :
    readStream stream input limit = .error (.io input reason) ↔
      (joined stream.chunks).size ≤ limit.toNat ∧ stream.fault = some reason := by
  rw [readStream_eq input hsize]
  by_cases hlarge : limit.toNat < (joined stream.chunks).size
  · simp [hlarge, Nat.not_le.mpr hlarge]
  · rw [if_neg hlarge]
    have hle : (joined stream.chunks).size ≤ limit.toNat := Nat.le_of_not_lt hlarge
    cases stream.fault <;> simp [hle]

end

/-- What a reader takes is a number of bytes that is a word, so it is compared with the limit as it is. -/
theorem Pulls.size_taken (h : Pulls fault rest (bytesToTake limit) .empty taken answer) :
    taken.size ≤ limit.toNat + 1 ∧ (UInt64.ofNat taken.size).toNat = taken.size := by
  obtain ⟨htaken, -⟩ := h.outcome
  rw [ByteArray.empty_append] at htaken
  have hle : taken.size ≤ min (limit.toNat + 1) (UInt64.size - 1) := by
    rw [htaken, ByteArray.size_extract, Nat.sub_zero]
    exact Nat.min_le_left _ _
  have hword : taken.size < UInt64.size := by
    have hpositive : 0 < UInt64.size := by decide
    omega
  exact ⟨Nat.le_trans hle (Nat.min_le_left _ _), UInt64.toNat_ofNat_of_lt hword⟩

end Esql.Files

namespace Esql

open Esql.Files (Stream Pulls joined bytesToTake readStream)

/-! ## A run whose standard input is refused -/

/-- A run over a standard input that is refused ends with the refusal: it has taken some bytes, and nothing else. -/
theorem run_refused [Diagnostics] {session : Session} {config : Config} {e : Failure} (files : FileSource)
    (hliteral : config.literal = none) (hpatterns : config.patterns = [])
    (h : readStream session.stdin stdinLabel config.limits.maxFileSize = .error e) :
    session.run files config =
      (.error e,
        { session with
          taken := ((joined session.stdin.chunks).extract 0 (bytesToTake config.limits.maxFileSize)).size }) := by
  have hsource : config.source = .ok .stdin := by rw [Config.source, hliteral, hpatterns]
  have hrun : config.acts files session.stdin =
      (do
        let content ← (readStream session.stdin stdinLabel config.limits.maxFileSize : Except Failure ByteArray)
        (scribe files session.stdin).process config {} stdinLabel content :
          ExceptT Failure (StateM (List Act)) Report.Outcome).run.run
        [.take (bytesToTake config.limits.maxFileSize)] := by
    rw [Config.acts, run, hsource]
    rfl
  rw [run_bind, run_lift, h] at hrun
  rw [run_of_acts hrun, ← Files.firstBytes_joined]
  rfl

/-- **A source is read within its limit.** Its content comes in any chunks, and is shorter than the last word.

    One byte more than the limit is asked for, or the last word where there is no such number. However the bytes come, a
    reader gets to an answer, always the same one, and it takes no more than it asks for. The answer is that the content
    is too large just if it is longer than the limit, even if the source would fail; it is the content just if that is
    not longer and the source ends; and it is the fault of the source just if the content is not longer. In a run, a
    standard input that is too large or fails is the end: nothing is written, and no file is asked for. -/
theorem reads_within_limit [Diagnostics] {stream : Stream} (input : String) (limit : UInt64)
    (hsize : (joined stream.chunks).size < UInt64.size - 1) :
    let content := joined stream.chunks
    let wanted := bytesToTake limit
    (wanted = if limit.toNat + 1 < UInt64.size then (limit + 1).toNat else limit.toNat) ∧
    (∃ taken answer, Pulls stream.fault content wanted .empty taken answer) ∧
    (∀ taken answer, Pulls stream.fault content wanted .empty taken answer →
      taken = content.extract 0 wanted ∧ taken.size ≤ limit.toNat + 1 ∧
        (UInt64.ofNat taken.size).toNat = taken.size ∧
        Files.bounded input limit answer = readStream stream input limit) ∧
    (readStream stream input limit = .error (.tooLarge input limit) ↔ limit.toNat < content.size) ∧
    (∀ bytes, readStream stream input limit = .ok bytes ↔
      bytes = content ∧ content.size ≤ limit.toNat ∧ stream.fault = none) ∧
    (∀ reason, readStream stream input limit = .error (.io input reason) ↔
      content.size ≤ limit.toNat ∧ stream.fault = some reason) ∧
    ∀ (session : Session) (files : FileSource) (config : Config), session.stdin = stream → config.literal = none →
      config.patterns = [] → config.limits.maxFileSize = limit → limit.toNat < content.size ∨ stream.fault ≠ none →
      ∃ e, (limit.toNat < content.size ∧ e = .tooLarge stdinLabel limit ∨
          content.size ≤ limit.toNat ∧ ∃ reason, stream.fault = some reason ∧ e = .io stdinLabel reason) ∧
        session.run files config = (.error e, { session with taken := (content.extract 0 wanted).size }) := by
  intro content wanted
  refine ⟨Files.bytesToTake_eq limit, Files.exists_pulls _ _ _ _, ?_, Files.readStream_tooLarge_iff input hsize,
    Files.readStream_ok_iff input hsize, Files.readStream_io_iff input hsize, ?_⟩
  · intro taken answer hpulls
    obtain ⟨htaken, hanswer⟩ := hpulls.take_eq
    obtain ⟨hle, hword⟩ := hpulls.size_taken
    rw [Files.firstBytes_joined] at htaken
    refine ⟨htaken, hle, hword, ?_⟩
    rw [hanswer]
    rfl
  · intro session files config hstdin hliteral hpatterns hlimit hrefused
    subst hstdin hlimit
    by_cases hlarge : config.limits.maxFileSize.toNat < content.size
    · have htooLarge := (Files.readStream_tooLarge_iff stdinLabel hsize).mpr hlarge
      exact ⟨_, .inl ⟨hlarge, rfl⟩, run_refused files hliteral hpatterns htooLarge⟩
    · have hle : content.size ≤ config.limits.maxFileSize.toNat := Nat.le_of_not_lt hlarge
      obtain ⟨reason, hreason⟩ := Option.ne_none_iff_exists'.mp (hrefused.resolve_left hlarge)
      have hio := (Files.readStream_io_iff stdinLabel hsize reason).mpr ⟨hle, hreason⟩
      exact ⟨_, .inr ⟨hle, reason, hreason, rfl⟩, run_refused files hliteral hpatterns hio⟩

/-- A stream of three bytes that then fails: one byte over the limit the fault is not met, and at the limit it is. -/
theorem reads_within_limit_failing :
    let stream : Stream := ⟨["ab".toUTF8, "c".toUTF8], some "gone"⟩
    (joined stream.chunks).size < UInt64.size - 1 ∧
      readStream stream "in" 2 = .error (.tooLarge "in" 2) ∧ readStream stream "in" 3 = .error (.io "in" "gone") ∧
      ({ stdin := stream } : Session).run ⟨fun _ => .ok [], fun _ => .ok .empty⟩ { limits := { maxFileSize := 2 } } =
        (.error (.tooLarge stdinLabel 2), { stdin := stream, taken := 3 }) := by
  intro stream
  have hsize : (joined stream.chunks).size < UInt64.size - 1 := by decide
  obtain ⟨-, -, -, htooLarge, -, -, hrun⟩ := reads_within_limit "in" 2 hsize
  obtain ⟨-, -, -, -, -, hio, -⟩ := reads_within_limit "in" 3 hsize
  refine ⟨hsize, htooLarge.mpr (by decide), (hio "gone").mpr ⟨by decide, rfl⟩, ?_⟩
  obtain ⟨e, ⟨-, rfl⟩ | ⟨hle, -⟩, hends⟩ := hrun { stdin := stream } ⟨fun _ => .ok [], fun _ => .ok .empty⟩
    { limits := { maxFileSize := 2 } } rfl rfl rfl rfl (.inl (by decide))
  · exact hends
  · exact absurd hle (by decide)

end Esql
