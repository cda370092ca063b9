import CodeWeave.Defs.Bash.TailLaws

namespace CodeWeave

theorem stripAnsi_append (state : AnsiState) (first second : Text) :
    stripAnsi state (first ++ second) =
      ((stripAnsi (stripAnsi state first).1 second).1,
        (stripAnsi state first).2 ++ (stripAnsi (stripAnsi state first).1 second).2) :=
  Transducer.run_append ansiParser state first second

theorem visible_of_step (state : AnsiState) (ch : Char) :
    (state.step ch).2 = if state = .text ∧ ch ≠ '\x1b' then [ch] else [] := by
  cases state with
  | text => by_cases escape : ch = '\x1b' <;> simp [AnsiState.step, escape]
  | escape => grind [AnsiState.step]
  | csi => grind [AnsiState.step]
  | osc => grind [AnsiState.step]
  | oscEscape => grind [AnsiState.step]

theorem escape_not_visible (state : AnsiState) (text : Text) :
    '\x1b' ∉ (stripAnsi state text).2 := by
  have visible (state : AnsiState) (ch : Char) : ∀ c ∈ (ansiParser.step state ch).2, c ≠ '\x1b' := by
    intro c shown
    rw [ansiParser, visible_of_step] at shown
    split at shown
    · next plain => rw [List.mem_singleton.mp shown]; exact plain.2
    · cases shown
  exact fun mem => Transducer.run_forall ansiParser visible state text _ mem rfl

namespace StreamDecoder

theorem decodeFrom_eq (ansi : AnsiState) (bytes : List UInt8) : decodeFrom ansi bytes =
    (⟨(utf8.machine.run [] bytes).1, (stripAnsi ansi (utf8.machine.run [] bytes).2).1⟩,
      (stripAnsi ansi (utf8.machine.run [] bytes).2).2) := by
  induction size : bytes.length using Nat.strongRecOn generalizing ansi bytes with
  | ind count ih =>
    cases bytes with
    | nil => rw [decodeFrom]; rfl
    | cons first rest =>
      have spec := Words.parse_spec (w := utf8) (first :: rest)
      rw [decodeFrom, strFromUtf8]
      cases parsed : utf8.parse (first :: rest) with
      | ok valid =>
        rw [parsed, Words.Parses] at spec
        rw [spec]
      | error stop =>
        obtain ⟨upTo, errorLen⟩ := stop
        rw [parsed] at spec
        obtain ⟨valid, before, after⟩ := spec
        have prefix_read : strFromUtf8 ((first :: rest).take upTo) = .ok valid := before
        simp only [prefix_read]
        cases errorLen with
        | none =>
          simp only at after ⊢
          rw [after]
        | some errorLen =>
          simp only at after ⊢
          obtain ⟨-, run⟩ := after
          have shorter : ((first :: rest).drop (upTo + errorLen)).length < count := by
            have := errorLen.property
            rw [← size, List.length_drop, List.length_cons]
            omega
          have parts (more : Text) : stripAnsi ansi (valid ++ utf8.standIn :: more) =
              ((stripAnsi (stripAnsi (stripAnsi ansi valid).1 ['\ufffd']).1 more).1,
                (stripAnsi ansi valid).2 ++ (stripAnsi (stripAnsi ansi valid).1 ['\ufffd']).2 ++
                  (stripAnsi (stripAnsi (stripAnsi ansi valid).1 ['\ufffd']).1 more).2) := by
            rw [List.append_cons, stripAnsi_append, stripAnsi_append]
            rfl
          rw [ih _ shorter _ _ rfl, run, parts]

def Settled (decoder : StreamDecoder) : Prop := utf8.Settled decoder.pendingUtf8

theorem Settled.decode_eq {decoder : StreamDecoder} (settled : decoder.Settled)
    (bytes : List UInt8) : decoder.decode bytes =
    (⟨(utf8.machine.run decoder.pendingUtf8 bytes).1,
      (stripAnsi decoder.ansi (utf8.machine.run decoder.pendingUtf8 bytes).2).1⟩,
      (stripAnsi decoder.ansi (utf8.machine.run decoder.pendingUtf8 bytes).2).2) := by
  rw [StreamDecoder.decode, decodeFrom_eq, Words.Settled.run_append settled]

theorem Settled.decode {decoder : StreamDecoder} (settled : decoder.Settled)
    (bytes : List UInt8) : (decoder.decode bytes).1.Settled := by
  rw [settled.decode_eq]
  exact Words.settled_run settled bytes

theorem Settled.decode_append {decoder : StreamDecoder} (settled : decoder.Settled)
    (first second : List UInt8) : decoder.decode (first ++ second) =
    (((decoder.decode first).1.decode second).1,
      (decoder.decode first).2 ++ ((decoder.decode first).1.decode second).2) := by
  rw [(settled.decode first).decode_eq, settled.decode_eq, settled.decode_eq,
    Transducer.run_append, stripAnsi_append]

theorem Settled.finish_eq {decoder : StreamDecoder} (settled : decoder.Settled) :
    decoder.finish = ({}, (stripAnsi decoder.ansi (utf8.flush decoder.pendingUtf8)).2) := by
  rw [StreamDecoder.finish, fromUtf8Lossy, Words.Settled.decode settled]

def handle (decoder : StreamDecoder) : Option (List UInt8) → StreamDecoder × Text
  | some bytes => decoder.decode bytes
  | none => decoder.finish

end StreamDecoder

def pipeDecoder : Transducer StreamDecoder (Option (List UInt8)) Char := ⟨StreamDecoder.handle⟩

theorem run_chunks {decoder : StreamDecoder} (settled : decoder.Settled)
    (chunks : List (List UInt8)) :
    pipeDecoder.run decoder (chunks.map some) = decoder.decode chunks.flatten := by
  induction chunks generalizing decoder with
  | nil => rw [List.flatten_nil, settled.decode_eq]; rfl
  | cons chunk chunks ih =>
    have step : pipeDecoder.step decoder (some chunk) = decoder.decode chunk := rfl
    rw [List.map_cons, Transducer.run_cons, step, ih (settled.decode chunk), List.flatten_cons,
      settled.decode_append]

theorem run_stream (chunks : List (List UInt8)) :
    pipeDecoder.run {} (chunks.map some ++ [none]) =
      ({}, (stripAnsi .text (fromUtf8Lossy chunks.flatten)).2) := by
  have fresh : StreamDecoder.Settled {} := Words.settled_nil
  have finish (decoder : StreamDecoder) : pipeDecoder.step decoder none = decoder.finish := rfl
  rw [Transducer.run_append, Transducer.run_singleton, finish, run_chunks fresh,
    (fresh.decode _).finish_eq, fresh.decode_eq, fromUtf8Lossy, Words.decode_eq, stripAnsi_append]

structure PipeEvent where
  pipe : Pipe
  chunk : Option (List UInt8)

namespace RunOutput

def handle (output : RunOutput) (event : PipeEvent) : RunOutput :=
  match event.chunk with
  | some bytes => output.ingest event.pipe bytes
  | none => output.finish event.pipe

def run (limit : Nat) (events : List PipeEvent) : RunOutput := events.foldl handle (new limit)

def buffer (output : RunOutput) : Pipe → TailBuffer
  | .stdout => output.stdout
  | .stderr => output.stderr

variable (output : RunOutput)

theorem handle_eq (event : PipeEvent) : output.handle event =
    (output.setDecoder event.pipe (pipeDecoder.step (output.decoder event.pipe) event.chunk).1).append
      event.pipe (pipeDecoder.step (output.decoder event.pipe) event.chunk).2 := by
  obtain ⟨pipe, chunk⟩ := event
  cases chunk <;> rfl

def extend (buffer : TailBuffer) (text : Text) : TailBuffer :=
  if text = [] then buffer else buffer.push text

theorem handle_own (event : PipeEvent) :
    (output.handle event).decoder event.pipe =
      (pipeDecoder.step (output.decoder event.pipe) event.chunk).1 ∧
    (output.handle event).buffer event.pipe = extend (output.buffer event.pipe)
      (pipeDecoder.step (output.decoder event.pipe) event.chunk).2 := by
  rw [handle_eq]
  generalize pipeDecoder.step (output.decoder event.pipe) event.chunk = decoded
  cases event.pipe with
  | stdout => by_cases none : decoded.2 = [] <;> simp [append, setDecoder, decoder, buffer, extend, none]
  | stderr => by_cases none : decoded.2 = [] <;> simp [append, setDecoder, decoder, buffer, extend, none]

theorem handle_other {event : PipeEvent} {pipe : Pipe} (other : event.pipe ≠ pipe) :
    (output.handle event).decoder pipe = output.decoder pipe ∧
      (output.handle event).buffer pipe = output.buffer pipe := by
  rw [handle_eq]
  generalize pipeDecoder.step (output.decoder event.pipe) event.chunk = decoded
  obtain ⟨own, chunk⟩ := event
  cases own <;> cases pipe <;> first | exact absurd rfl other | skip
  all_goals by_cases none : decoded.2 = [] <;> simp [append, setDecoder, decoder, buffer, none]

theorem handle_combined (event : PipeEvent) : (output.handle event).combined =
    extend output.combined (pipeDecoder.step (output.decoder event.pipe) event.chunk).2 := by
  rw [handle_eq]
  generalize pipeDecoder.step (output.decoder event.pipe) event.chunk = decoded
  cases event.pipe <;> by_cases none : decoded.2 = [] <;>
    simp [append, setDecoder, extend, none]

end RunOutput

def chunksOf (pipe : Pipe) (events : List PipeEvent) : List (Option (List UInt8)) :=
  (events.filter fun event => event.pipe = pipe).map PipeEvent.chunk

def printed (pipe : Pipe) (events : List PipeEvent) : Text :=
  (pipeDecoder.run {} (chunksOf pipe events)).2

theorem chunksOf_own {pipe : Pipe} {event : PipeEvent} (own : event.pipe = pipe)
    (events : List PipeEvent) :
    chunksOf pipe (events ++ [event]) = chunksOf pipe events ++ [event.chunk] := by
  simp [chunksOf, own]

theorem chunksOf_other {pipe : Pipe} {event : PipeEvent} (other : event.pipe ≠ pipe)
    (events : List PipeEvent) : chunksOf pipe (events ++ [event]) = chunksOf pipe events := by
  simp [chunksOf, other]

namespace RunOutput

/-- Each buffer holds the tail of its stream, and the combined one is the longest. -/
structure Carries (limit : Nat) (output : RunOutput) (events : List PipeEvent) : Prop where
  decoder : ∀ pipe, output.decoder pipe = (pipeDecoder.run {} (chunksOf pipe events)).1
  limited : ∀ pipe, (output.buffer pipe).limit = limit
  holds : ∀ pipe, (output.buffer pipe).Holds (printed pipe events)
  combined_limited : output.combined.limit = limit
  combined : ∃ stream, output.combined.Holds stream ∧
    ∀ pipe, (printed pipe events).length ≤ stream.length

theorem extend_limit (buffer : TailBuffer) (text : Text) :
    (extend buffer text).limit = buffer.limit := by
  rw [extend]
  split
  · rfl
  · exact buffer.push_limit text

theorem extend_holds {buffer : TailBuffer} {stream : Text} (holds : buffer.Holds stream)
    (text : Text) : (extend buffer text).Holds (stream ++ text) := by
  rw [extend]
  split
  · next none => rwa [none, List.append_nil]
  · exact holds.push text

theorem Carries.handle {limit : Nat} {output : RunOutput} {events : List PipeEvent}
    (carries : output.Carries limit events) (event : PipeEvent) :
    (output.handle event).Carries limit (events ++ [event]) := by
  obtain ⟨own_decoder, own_buffer⟩ := output.handle_own event
  have text : printed event.pipe (events ++ [event]) = printed event.pipe events ++
      (pipeDecoder.step (output.decoder event.pipe) event.chunk).2 := by
    rw [printed, chunksOf_own rfl, Transducer.run_append, Transducer.run_singleton,
      carries.decoder, printed]
  refine ⟨fun pipe => ?_, fun pipe => ?_, fun pipe => ?_, ?_, ?_⟩
  · by_cases own : event.pipe = pipe
    · rw [← own, own_decoder, chunksOf_own rfl, Transducer.run_append, Transducer.run_singleton,
        carries.decoder]
    · rw [(output.handle_other own).1, chunksOf_other own, carries.decoder]
  · by_cases own : event.pipe = pipe
    · rw [← own, own_buffer, extend_limit, carries.limited]
    · rw [(output.handle_other own).2, carries.limited]
  · by_cases own : event.pipe = pipe
    · rw [← own, own_buffer, text]
      exact extend_holds (carries.holds event.pipe) _
    · rw [(output.handle_other own).2, printed, chunksOf_other own]
      exact carries.holds pipe
  · rw [handle_combined, extend_limit, carries.combined_limited]
  · obtain ⟨stream, holds, longest⟩ := carries.combined
    refine ⟨_, by rw [handle_combined]; exact extend_holds holds _, fun pipe => ?_⟩
    have before := longest pipe
    rw [List.length_append]
    by_cases own : event.pipe = pipe
    · rw [← own, text, List.length_append, own]
      omega
    · rw [printed, chunksOf_other own]
      exact Nat.le_add_right_of_le before

theorem run_carries (limit : Nat) (events : List PipeEvent) :
    (run limit events).Carries limit events := by
  induction events using List.reverseRecOn with
  | nil =>
    refine ⟨?_, ?_, ?_, rfl, [], TailBuffer.holds_new limit, ?_⟩
    · intro pipe; cases pipe <;> rfl
    · intro pipe; cases pipe <;> rfl
    · intro pipe; cases pipe <;> exact TailBuffer.holds_new limit
    · intro pipe; exact Nat.le_refl 0
  | append_singleton events event ih =>
    rw [run, List.foldl_append]
    exact ih.handle event

theorem foldl_alone {output alone : RunOutput} {pipe : Pipe}
    (decoder : output.decoder pipe = alone.decoder pipe)
    (buffer : output.buffer pipe = alone.buffer pipe) (events : List PipeEvent) :
    (events.foldl handle output).decoder pipe =
      ((events.filter fun event => event.pipe = pipe).foldl handle alone).decoder pipe ∧
    (events.foldl handle output).buffer pipe =
      ((events.filter fun event => event.pipe = pipe).foldl handle alone).buffer pipe := by
  induction events generalizing output alone with
  | nil => exact ⟨decoder, buffer⟩
  | cons event events ih =>
    rw [List.foldl_cons]
    by_cases own : event.pipe = pipe
    · rw [List.filter_cons_of_pos (by simpa using own), List.foldl_cons]
      subst own
      obtain ⟨decoder', buffer'⟩ := output.handle_own event
      obtain ⟨decoder'', buffer''⟩ := alone.handle_own event
      exact ih (by rw [decoder', decoder'', decoder]) (by rw [buffer', buffer'', decoder, buffer])
    · rw [List.filter_cons_of_neg (by simpa using own)]
      obtain ⟨decoder', buffer'⟩ := output.handle_other own
      exact ih (by rw [decoder', decoder]) (by rw [buffer', buffer])

end RunOutput

theorem pipe_dropped_le_combined (limit : Nat) (events : List PipeEvent) (pipe : Pipe) :
    ((RunOutput.run limit events).buffer pipe).droppedChars ≤
      (RunOutput.run limit events).combined.droppedChars := by
  have carries := RunOutput.run_carries limit events
  obtain ⟨stream, holds, longest⟩ := carries.combined
  rw [(carries.holds pipe).dropped, holds.dropped, carries.limited, carries.combined_limited,
    Tail.dropped, Tail.dropped]
  exact Nat.sub_le_sub_right (longest pipe) limit

theorem output_independent_of_chunks :
    (∀ chunks : List (List UInt8),
      let decoded := pipeDecoder.run {} (chunks.map some ++ [none])
      decoded = ({}, (stripAnsi .text (fromUtf8Lossy chunks.flatten)).2) ∧ '\x1b' ∉ decoded.2) ∧
    ∀ (limit : Nat) (events : List PipeEvent) (pipe : Pipe),
      let output := RunOutput.run limit events
      let alone := RunOutput.run limit (events.filter fun event => event.pipe = pipe)
      output.decoder pipe = alone.decoder pipe ∧ output.buffer pipe = alone.buffer pipe ∧
        (output.buffer pipe).Holds (printed pipe events) := by
  refine ⟨fun chunks => ⟨run_stream chunks, ?_⟩, fun limit events pipe => ?_⟩
  · rw [run_stream]
    exact escape_not_visible _ _
  · obtain ⟨decoder, buffer⟩ := RunOutput.foldl_alone rfl rfl events
    exact ⟨decoder, buffer, (RunOutput.run_carries limit events).holds pipe⟩

theorem continuationOffset_token (run : RunId) (stream : OutputStream) {offset : Nat}
    (bound : offset < 18446744073709551616) :
    continuationOffset (some (continuationToken run stream offset)) run stream = some offset := by
  unfold continuationOffset continuationToken
  rw [Option.bind_some, stripPrefix_append]
  simp only [parseUsize_decimal bound]

/-- The request with a page's token is answered with the next page. -/
theorem outputStream_token (record : RunRecord) (output : RunOutput) (maxOutputChars : Nat)
    (stream : OutputStream) {offset : Nat} (bound : offset < 18446744073709551616) :
    let page := (output.stream stream).page offset maxOutputChars
    let answer := outputStream record output maxOutputChars
      (some (continuationToken record.runId stream offset)) stream
    answer.get "output" = some (.string page.text) ∧ answer.get "continuation" =
      some (((page.next.map (continuationToken record.runId stream)).map .string).getD .null) := by
  simp only [outputStream, continuationOffset_token _ _ bound, Option.getD_some]
  exact ⟨rfl, rfl⟩

theorem tail_of_stream :
    (∀ (limit : Nat) (texts : List Text),
      let buffer := texts.foldl TailBuffer.push (.new limit)
      let stream := texts.flatten
      buffer.retained = stream.drop (stream.length - limit) ∧
      buffer.retained.length = min limit stream.length ∧
      buffer.retainedChars = buffer.retained.length ∧
      buffer.droppedChars + buffer.retainedChars = stream.length ∧
      ∀ offset maxChars,
        let first := max offset buffer.droppedChars
        buffer.page offset maxChars = ⟨(stream.drop first).take maxChars,
          if first + maxChars < stream.length then some (first + maxChars) else none⟩) ∧
    (∀ (limit first : Nat) (events : List (Tail.Event Char)),
      let follower := Follower.run limit first events
      (∀ offset ∈ follower.next, offset = follower.passed) ∧
      (follower.received.map Prod.snd).Pairwise (· < ·) ∧
      (∀ item ∈ follower.received, first ≤ item.2 ∧ item.2 < follower.passed ∧
        (events.flatMap Tail.Event.pushed)[item.2]? = some item.1) ∧
      ∀ offset, first ≤ offset → offset < follower.passed →
        offset ∉ follower.received.map Prod.snd → ∃ before later, events = before ++ later ∧
          (∃ next ∈ (Follower.run limit first before).next, next ≤ offset) ∧
          offset < (Follower.run limit first before).buffer.droppedChars) ∧
    ∀ (limit : Nat) (events : List PipeEvent),
      let output := RunOutput.run limit events
      0 < output.stdout.droppedChars ∨ 0 < output.stderr.droppedChars →
        0 < output.combined.droppedChars ∧ output.truncated = true := by
  refine ⟨fun limit texts => ?_, fun limit first events => ?_, fun limit events dropped => ?_⟩
  · obtain ⟨limited, holds⟩ := TailBuffer.new_pushed limit texts
    have retained := holds.retained_eq
    refine ⟨by rw [retained, limited]; rfl, by rw [retained, limited, Tail.length_kept],
      by rw [retained, holds.retained], ?_, fun offset maxChars => ?_⟩
    · rw [holds.dropped, holds.retained, Tail.dropped_add_length_kept]
    · rw [holds.page, Tail.page_items, Tail.page_next, holds.dropped]
  · have follows := Follower.run_follows limit first events
    have reader := Tail.Reader.follows limit first events
    simp only [follows.next, follows.received, follows.passed]
    refine ⟨fun offset more => (reader.onward offset more).2, reader.ordered, fun item mem => ?_,
      fun offset after passed unread => ?_⟩
    · rw [← Tail.Reader.run_stream]
      exact ⟨(reader.within item mem).1, (reader.within item mem).2, reader.genuine item mem⟩
    · obtain ⟨before, later, split, next, gone⟩ := Tail.Reader.missed events offset after passed unread
      have earlier := Follower.run_follows limit first before
      refine ⟨before, later, split, by rwa [earlier.next], ?_⟩
      rwa [earlier.holds.dropped, earlier.limited]
  · have own (pipe : Pipe) := pipe_dropped_le_combined limit events pipe
    have some_dropped : 0 < (RunOutput.run limit events).combined.droppedChars := by
      rcases dropped with out | err
      · exact Nat.lt_of_lt_of_le out (own .stdout)
      · exact Nat.lt_of_lt_of_le err (own .stderr)
    exact ⟨some_dropped, by rwa [RunOutput.truncated, decide_eq_true_eq]⟩

end CodeWeave
