import CodeWeave.Defs.Bash.Lifecycle
import CodeWeave.Defs.Utf8

namespace CodeWeave

inductive OutputStream
  | combined
  | stdout
  | stderr
  deriving DecidableEq

def OutputStream.asStr : OutputStream → String
  | .combined => "combined"
  | .stdout => "stdout"
  | .stderr => "stderr"

inductive Pipe
  | stdout
  | stderr
  deriving DecidableEq

inductive AnsiState
  | text
  | escape
  | csi
  | osc
  | oscEscape
  deriving DecidableEq

def AnsiState.step (state : AnsiState) (ch : Char) : AnsiState × Text :=
  match state with
  | .text => if ch = '\x1b' then (.escape, []) else (.text, [ch])
  | .escape =>
    if ch = '[' then (.csi, [])
    else if ch = ']' then (.osc, [])
    else if ch = '\x1b' then (.escape, [])
    else (.text, [])
  | .csi => if '@' ≤ ch ∧ ch ≤ '~' then (.text, []) else (.csi, [])
  | .osc =>
    if ch = '\x07' then (.text, [])
    else if ch = '\x1b' then (.oscEscape, [])
    else (.osc, [])
  | .oscEscape =>
    if ch = '\\' then (.text, [])
    else if ch = '\x1b' then (.oscEscape, [])
    else (.osc, [])

def ansiParser : Transducer AnsiState Char Char := ⟨AnsiState.step⟩

/-- The one ANSI escape parser: the state it carries on, and the visible text. -/
def stripAnsi (state : AnsiState) (text : Text) : AnsiState × Text := ansiParser.run state text

structure StreamDecoder where
  pendingUtf8 : List UInt8 := []
  ansi : AnsiState := .text
  deriving DecidableEq

namespace StreamDecoder

def decodeFrom (ansi : AnsiState) (bytes : List UInt8) : StreamDecoder × Text :=
  match bytes with
  | [] => (⟨[], ansi⟩, [])
  | first :: rest =>
    match strFromUtf8 (first :: rest) with
    | .ok valid =>
      let (ansi, out) := stripAnsi ansi valid
      (⟨[], ansi⟩, out)
    | .error error =>
      let (ansi, out) :=
        match strFromUtf8 ((first :: rest).take error.validUpTo) with
        | .ok valid => stripAnsi ansi valid
        | .error _ => (ansi, [])
      match error.errorLen with
      | none => (⟨(first :: rest).drop error.validUpTo, ansi⟩, out)
      | some errorLen =>
        let (ansi, mark) := stripAnsi ansi ['\ufffd']
        let (decoder, more) := decodeFrom ansi ((first :: rest).drop (error.validUpTo + errorLen))
        (decoder, out ++ mark ++ more)
termination_by bytes.length
decreasing_by
  have := errorLen.property
  rw [List.length_drop, List.length_cons]
  omega

variable (decoder : StreamDecoder)

def decode (bytes : List UInt8) : StreamDecoder × Text :=
  decodeFrom decoder.ansi (decoder.pendingUtf8 ++ bytes)

def finish : StreamDecoder × Text :=
  ({}, (stripAnsi decoder.ansi (fromUtf8Lossy decoder.pendingUtf8)).2)

end StreamDecoder

def byteAtChar (value : Text) (chars : Nat) : Nat :=
  ((charIndices 0 value)[chars]?).getD (utf8Count value)

/-- The last `limit` characters of a stream. `start` is the byte offset in `text` where
they begin. -/
structure TailBuffer where
  text : Text
  start : Nat
  retainedChars : Nat
  droppedChars : Nat
  limit : Nat
  deriving DecidableEq

structure Page where
  text : Text
  next : Option Nat
  deriving DecidableEq

namespace TailBuffer

def new (limit : Nat) : TailBuffer := ⟨[], 0, 0, 0, limit⟩

variable (buffer : TailBuffer)

def push (text : Text) : TailBuffer :=
  let buffer := { buffer with
    text := buffer.text ++ text
    retainedChars := buffer.retainedChars + text.length }
  if buffer.retainedChars ≤ buffer.limit then buffer
  else
    let excess := buffer.retainedChars - buffer.limit
    let advance := ((charIndices 0 (dropBytes buffer.text buffer.start))[excess]?).getD
      (utf8Count buffer.text - buffer.start)
    let buffer := { buffer with
      start := buffer.start + advance
      retainedChars := buffer.retainedChars - excess
      droppedChars := buffer.droppedChars + excess }
    if utf8Count buffer.text / 2 < buffer.start then
      { buffer with text := dropBytes buffer.text buffer.start, start := 0 }
    else buffer

def retained : Text := dropBytes buffer.text buffer.start

def totalChars : Nat := buffer.droppedChars + buffer.retainedChars

/-- Up to `maxChars` characters from an absolute offset, or from the oldest retained
character where that one is dropped. -/
def page (offset maxChars : Nat) : Page :=
  let retained := buffer.retained
  let skip := min (offset - buffer.droppedChars) buffer.retainedChars
  let rest := dropBytes retained (byteAtChar retained skip)
  let finish := byteAtChar rest maxChars
  ⟨takeBytes rest finish,
    if finish < utf8Count rest then
      some (buffer.droppedChars + skip + (takeBytes rest finish).length)
    else none⟩

end TailBuffer

/-- Everything a run printed. The text an `ingest` decodes into is a buffer that keeps
nothing between calls. -/
structure RunOutput where
  stdout : TailBuffer
  stderr : TailBuffer
  combined : TailBuffer
  stdoutDecoder : StreamDecoder
  stderrDecoder : StreamDecoder
  deriving DecidableEq

namespace RunOutput

def new (limit : Nat) : RunOutput := ⟨.new limit, .new limit, .new limit, {}, {}⟩

variable (output : RunOutput)

def decoder : Pipe → StreamDecoder
  | .stdout => output.stdoutDecoder
  | .stderr => output.stderrDecoder

def setDecoder (pipe : Pipe) (decoder : StreamDecoder) : RunOutput :=
  match pipe with
  | .stdout => { output with stdoutDecoder := decoder }
  | .stderr => { output with stderrDecoder := decoder }

def append (pipe : Pipe) (text : Text) : RunOutput :=
  if text = [] then output
  else
    let output :=
      match pipe with
      | .stdout => { output with stdout := output.stdout.push text }
      | .stderr => { output with stderr := output.stderr.push text }
    { output with combined := output.combined.push text }

def ingest (pipe : Pipe) (bytes : List UInt8) : RunOutput :=
  let (decoder, text) := (output.decoder pipe).decode bytes
  (output.setDecoder pipe decoder).append pipe text

def finish (pipe : Pipe) : RunOutput :=
  let (decoder, text) := (output.decoder pipe).finish
  (output.setDecoder pipe decoder).append pipe text

def stream : OutputStream → TailBuffer
  | .combined => output.combined
  | .stdout => output.stdout
  | .stderr => output.stderr

def truncated : Bool := 0 < output.combined.droppedChars

end RunOutput

def continuationToken (run : RunId) (stream : OutputStream) (offset : Nat) : Text :=
  "bash:".toList ++ run ++ [':'] ++ stream.asStr.toList ++ [':'] ++ decimal offset

def continuationOffset (token : Option Text) (run : RunId) (stream : OutputStream) : Option Nat :=
  token.bind fun value =>
    match stripPrefix ("bash:".toList ++ run ++ [':'] ++ stream.asStr.toList ++ [':']) value with
    | some offset => parseUsize offset
    | none =>
      if stream = .combined then
        (stripPrefix ("bash:".toList ++ run ++ [':']) value).bind parseUsize
      else none

/-- `BashSupervisor::output_stream`, of a run that is retained. -/
def outputStream (record : RunRecord) (output : RunOutput) (maxOutputChars : Nat)
    (continuation : Option Text) (stream : OutputStream) : Value :=
  let buffer := output.stream stream
  let offset := (continuationOffset continuation record.runId stream).getD buffer.droppedChars
  let page := buffer.page offset maxOutputChars
  json [("run_id", .string record.runId), ("status", .str record.status.asStr),
    ("exit_code", (record.exitCode.map .number).getD .null), ("stream", .str stream.asStr),
    ("output", .string page.text),
    ("continuation", ((page.next.map (continuationToken record.runId stream)).map .string).getD .null),
    ("total_chars", .number buffer.totalChars), ("retained_chars", .number buffer.retainedChars),
    ("output_truncated", .bool (0 < buffer.droppedChars)), ("retention_policy", .str "tail"),
    ("dropped_prefix_chars", .number buffer.droppedChars),
    ("retained_start_offset", .number buffer.droppedChars),
    ("continuation_scope", .str "retained_buffer")]

end CodeWeave
