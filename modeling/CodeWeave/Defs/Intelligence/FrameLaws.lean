import CodeWeave.Defs.Intelligence.Frames
import CodeWeave.Defs.Intelligence.UriLaws
import CodeWeave.Defs.TrimLaws

namespace CodeWeave

theorem newline_mem_utf8EncodeChar {c : Char} (mem : (10 : UInt8) ∈ String.utf8EncodeChar c) :
    c = '\n' := by
  simp only [String.utf8EncodeChar] at mem
  split at mem
  · next ascii =>
    have code := congrArg UInt8.toNat (List.mem_singleton.mp mem)
    rw [UInt8.toNat_ofNat', Nat.mod_eq_of_lt (by omega)] at code
    exact Char.ext (UInt32.toNat_inj.mp code.symm)
  · exfalso
    split at mem
    · simp [← UInt8.toNat_inj] at mem
      omega
    · split at mem
      · simp [← UInt8.toNat_inj] at mem
        omega
      · simp [← UInt8.toNat_inj] at mem
        omega

theorem newline_mem_bytes {text : Text} (mem : (10 : UInt8) ∈ (Text.bytes text).data.toList) :
    '\n' ∈ text := by
  rw [bytes_toList] at mem
  obtain ⟨c, among, here⟩ := List.mem_flatMap.mp mem
  rwa [← newline_mem_utf8EncodeChar here]

section

variable {line rest : List UInt8}

theorem untilNewline_append (single : 10 ∉ line) (rest : List UInt8) :
    untilNewline (line ++ 10 :: rest) = (line ++ [10], rest) := by
  induction line with
  | nil => rw [List.nil_append, untilNewline, if_pos rfl]; rfl
  | cons byte line ih =>
    rw [List.mem_cons, not_or] at single
    obtain ⟨other, later⟩ := single
    rw [List.cons_append, untilNewline, if_neg (Ne.symm other), ih later]
    rfl

theorem untilNewline_eq_self (single : 10 ∉ line) : untilNewline line = (line, []) := by
  induction line with
  | nil => rfl
  | cons byte line ih =>
    rw [List.mem_cons, not_or] at single
    obtain ⟨other, later⟩ := single
    rw [untilNewline, if_neg (Ne.symm other), ih later]

end

def lineBytes (line : Text) : List UInt8 := (Text.bytes (line ++ ['\r', '\n'])).data.toList

theorem lineBytes_eq (line : Text) :
    lineBytes line = line.flatMap String.utf8EncodeChar ++ [13, 10] := by
  rw [lineBytes, bytes_toList, List.flatMap_append]
  rfl

theorem newline_not_mem_of_line {line : Text} (single : '\n' ∉ line) :
    (10 : UInt8) ∉ line.flatMap String.utf8EncodeChar ++ [13] := by
  intro mem
  cases List.mem_append.mp mem with
  | inl here =>
    rw [← bytes_toList] at here
    exact single (newline_mem_bytes here)
  | inr here => cases List.mem_singleton.mp here

theorem readLine_lineBytes {line : Text} (single : '\n' ∉ line) (rest : List UInt8) :
    readLine (lineBytes line ++ rest) = some (line ++ ['\r', '\n'], rest) := by
  have parts : lineBytes line ++ rest =
      (line.flatMap String.utf8EncodeChar ++ [13]) ++ 10 :: rest := by
    rw [lineBytes_eq, List.append_assoc, List.append_assoc]
    rfl
  have whole : line.flatMap String.utf8EncodeChar ++ [13] ++ [10] = lineBytes line := by
    rw [lineBytes_eq, List.append_assoc]
    rfl
  have read := untilNewline_append (newline_not_mem_of_line single) rest
  rw [← parts, whole] at read
  have nonempty : lineBytes line ≠ [] := by
    rw [lineBytes_eq]
    exact List.append_ne_nil_of_right_ne_nil _ (List.cons_ne_nil _ _)
  have text : fromUtf8 ⟨(lineBytes line).toArray⟩ = some (line ++ ['\r', '\n']) := by
    rw [lineBytes, Array.toArray_toList]
    exact fromUtf8_bytes _
  simp only [readLine, read, if_neg nonempty, text, Option.map_some]

theorem readLine_unended {reader rest : List UInt8} {line : Text} (single : 10 ∉ reader)
    (found : readLine reader = some (line, rest)) : rest = [] := by
  simp only [readLine, untilNewline_eq_self single] at found
  split at found
  · cases found
  · obtain ⟨text, -, eq⟩ := Option.map_eq_some_iff.mp found
    exact (Prod.mk.inj eq).2.symm

structure BlankLine (line : Text) : Prop where
  single : '\n' ∉ line
  blank : ∀ c ∈ line, isWhitespace c = true

structure FurtherLine (line : Text) : Prop where
  single : '\n' ∉ line
  solid : trim line ≠ []
  other : ∀ name value, splitOnce ':' (trim line) = some (name, value) →
    ¬equalIgnoreCase (trim name) "Content-Length".toList

theorem trim_line (line : Text) : trim (line ++ ['\r', '\n']) = trim line :=
  trim_append (List.all_eq_true.mp rfl) line

section

variable {length : Option Nat} {line : Text}

theorem BlankLine.headerLine (blank : BlankLine line) :
    headerLine length (line ++ ['\r', '\n']) =
      if length.isSome then .ok none else .ok (some length) := by
  simp only [CodeWeave.headerLine, trim_line, trim_eq_nil blank.blank, if_true]

theorem FurtherLine.headerLine (further : FurtherLine line) :
    headerLine length (line ++ ['\r', '\n']) = .ok (some length) := by
  simp only [CodeWeave.headerLine, trim_line, if_neg further.solid]
  split
  · rfl
  · next name value parts =>
    rw [if_neg (further.other name value parts)]

end

theorem solid_of_named {name : Text} (named : equalIgnoreCase name "Content-Length".toList)
    {c : Char} (mem : c ∈ name) : c.toNat < 128 ∧ isWhitespace c = false ∧ c ≠ ':' := by
  have lower : name.map Char.toLower = "content-length".toList := named.trans (by decide)
  have letter : c.toLower ∈ "content-length".toList := lower ▸ List.mem_map_of_mem mem
  have small : c.toNat < 128 := by
    by_cases upper : c.val ≥ 'A'.val ∧ c.val ≤ 'Z'.val
    · exact Nat.lt_of_le_of_lt (UInt32.le_iff_toNat_le.mp upper.2) (by decide)
    · have kept : c.toLower = c := dif_neg upper
      have ascii : ("content-length".toList.all fun d => d.toNat < 128) = true := by decide
      exact of_decide_eq_true (List.all_eq_true.mp ascii c (kept ▸ letter))
  have all : ∀ n : Fin 128, (Char.ofNat n).toLower ∈ "content-length".toList →
      isWhitespace (Char.ofNat n) = false ∧ Char.ofNat n ≠ ':' := by decide +kernel
  have here := all ⟨c.toNat, small⟩
  rw [Char.ofNat_toNat] at here
  exact ⟨small, here letter⟩

def lengthLine (name : Text) (length : Nat) : Text := name ++ ':' :: ' ' :: decimal length

theorem trim_decimal (n : Nat) : trim (' ' :: decimal n) = decimal n := by
  have digits : ∀ c ∈ decimal n, isWhitespace c = false := fun c mem =>
    isWhitespace_isDigit (isDigit_of_mem_decimal mem)
  have solid : trim (decimal n) = decimal n :=
    trim_eq_self (fun _ mem => digits _ (List.mem_of_mem_head? mem))
      fun _ mem => digits _ (List.mem_of_mem_getLast? mem)
  rw [trim, List.dropWhile_cons_of_pos (by decide)]
  exact solid

section

variable {name : Text} {n : Nat}

theorem trim_name (named : equalIgnoreCase name "Content-Length".toList) : trim name = name :=
  trim_eq_self (fun _ mem => (solid_of_named named (List.mem_of_mem_head? mem)).2.1)
    fun _ mem => (solid_of_named named (List.mem_of_mem_getLast? mem)).2.1

theorem trim_lengthLine (named : equalIgnoreCase name "Content-Length".toList) :
    trim (lengthLine name n) = lengthLine name n := by
  refine trim_eq_self (fun c front => ?_) fun c back => ?_
  · cases name with
    | nil => cases named
    | cons d rest =>
      obtain rfl := Option.some.inj front
      exact (solid_of_named named List.mem_cons_self).2.1
  · have digits : c ∈ (decimal n).getLast? := by
      rw [lengthLine, List.getLast?_append_of_ne_nil _ (List.cons_ne_nil _ _)] at back
      rwa [List.getLast?_cons_cons, List.getLast?_cons_of_ne_nil (decimal_ne_nil n)] at back
    exact isWhitespace_isDigit (isDigit_of_mem_decimal (List.mem_of_mem_getLast? digits))

theorem headerLine_lengthLine (named : equalIgnoreCase name "Content-Length".toList)
    (bound : n < 18446744073709551616) (length : Option Nat) :
    headerLine length (lengthLine name n ++ ['\r', '\n']) = .ok (some (some n)) := by
  have colon : ':' ∉ name := fun mem => (solid_of_named named mem).2.2 rfl
  have nonempty : lengthLine name n ≠ [] := List.append_ne_nil_of_right_ne_nil _ (List.cons_ne_nil _ _)
  have parts : splitOnce ':' (lengthLine name n) = some (name, ' ' :: decimal n) :=
    splitOnce_append colon _
  simp only [headerLine, trim_line, trim_lengthLine named, if_neg nonempty, parts, trim_name named,
    if_pos named, trim_decimal, parseUsize_decimal bound]

theorem newline_not_mem_lengthLine (named : equalIgnoreCase name "Content-Length".toList) :
    '\n' ∉ lengthLine name n := by
  intro mem
  cases List.mem_append.mp mem with
  | inl here => exact Bool.false_ne_true ((solid_of_named named here).2.1.symm.trans (by decide))
  | inr here =>
    cases List.mem_cons.mp here with
    | inl colon => cases colon
    | inr later =>
      cases List.mem_cons.mp later with
      | inl space => cases space
      | inr digit => cases isDigit_of_mem_decimal digit

end

/-- The lines of a header take the length read so far to another, and do not end the header. -/
inductive HeaderRun : Option Nat → List Text → Option Nat → Prop
  | nil : HeaderRun length [] length
  | cons {lines : List Text} (single : '\n' ∉ line)
      (step : headerLine length (line ++ ['\r', '\n']) = .ok (some next)) :
      HeaderRun next lines last → HeaderRun length (line :: lines) last

namespace HeaderRun

variable {length next last : Option Nat} {lines more : List Text}

theorem append (run : HeaderRun length lines next) (later : HeaderRun next more last) :
    HeaderRun length (lines ++ more) last := by
  induction run with
  | nil => exact later
  | cons single step _ ih => exact .cons single step (ih later)

theorem blank (blank : ∀ line ∈ lines, BlankLine line) : HeaderRun none lines none := by
  induction lines with
  | nil => exact .nil
  | cons line lines ih =>
    obtain ⟨here, later⟩ := List.forall_mem_cons.mp blank
    exact .cons here.single here.headerLine (ih later)

theorem further (further : ∀ line ∈ lines, FurtherLine line) : HeaderRun length lines length := by
  induction lines with
  | nil => exact .nil
  | cons line lines ih =>
    obtain ⟨here, later⟩ := List.forall_mem_cons.mp further
    exact .cons here.single here.headerLine (ih later)

theorem readHeader (run : HeaderRun length lines next) (rest : List UInt8) :
    readHeader length (lines.flatMap lineBytes ++ rest) = CodeWeave.readHeader next rest := by
  induction run with
  | nil => rfl
  | cons single step _ ih =>
    rw [List.flatMap_cons, List.append_assoc,
      readHeader_continues (readLine_lineBytes single _) step, ih]

end HeaderRun

def Torn (length : Option Nat) (reader : List UInt8) : Prop :=
  ∀ n rest, readHeader length reader = .ok (some (n, rest)) → rest = []

theorem readHeader_nil (length : Option Nat) : readHeader length [] = .ok none :=
  readHeader_none rfl

theorem torn_of_unended {reader : List UInt8} (single : 10 ∉ reader) (length : Option Nat) :
    Torn length reader := by
  intro n rest found
  cases first : readLine reader with
  | none =>
    rw [readHeader_none first] at found
    cases found
  | some read =>
    obtain ⟨line, after⟩ := read
    obtain rfl := readLine_unended single first
    cases outcome : headerLine length line with
    | error message =>
      rw [readHeader_error first outcome] at found
      cases found
    | ok ended =>
      cases ended with
      | none =>
        rw [readHeader_ended first outcome] at found
        cases found
        rfl
      | some next =>
        rw [readHeader_continues first outcome, readHeader_nil] at found
        cases found

theorem newline_not_mem_take {line : Text} (single : '\n' ∉ line) {n : Nat}
    (part : n < (lineBytes line).length) : (10 : UInt8) ∉ (lineBytes line).take n := by
  have parts : lineBytes line = (line.flatMap String.utf8EncodeChar ++ [13]) ++ [10] := by
    rw [lineBytes_eq, List.append_assoc]
    rfl
  rw [parts, List.length_append, List.length_singleton] at part
  rw [parts, List.take_append_of_le_length (Nat.le_of_lt_succ part)]
  exact fun mem => newline_not_mem_of_line single (List.mem_of_mem_take mem)

theorem HeaderRun.take {length next : Option Nat} {lines : List Text}
    (run : HeaderRun length lines next) (rest : List UInt8) (n : Nat) :
    Torn length ((lines.flatMap lineBytes ++ rest).take n) ∨
      (lines.flatMap lineBytes).length ≤ n ∧
        CodeWeave.readHeader length ((lines.flatMap lineBytes ++ rest).take n) =
          CodeWeave.readHeader next (rest.take (n - (lines.flatMap lineBytes).length)) := by
  induction run generalizing n with
  | nil => exact .inr ⟨Nat.zero_le n, rfl⟩
  | @cons line length mid next lines single step run ih =>
    rw [List.flatMap_cons, List.append_assoc, List.take_append]
    by_cases whole : (lineBytes line).length ≤ n
    · rw [List.take_of_length_le whole]
      have same := @readHeader_continues length _ _ _ _
        (readLine_lineBytes single ((lines.flatMap lineBytes ++ rest).take (n - (lineBytes line).length)))
        step
      cases ih (n - (lineBytes line).length) with
      | inl torn =>
        refine .inl fun m after found => torn m after ?_
        rwa [same] at found
      | inr read =>
        refine .inr ⟨?_, ?_⟩
        · rw [List.length_append]
          omega
        · rw [same, read.2, List.length_append, Nat.sub_sub]
    · rw [Nat.sub_eq_zero_of_le (Nat.le_of_not_le whole), List.take_zero, List.append_nil]
      exact .inl (torn_of_unended (newline_not_mem_take single (Nat.lt_of_not_le whole)) length)

/-- A body as a sender may frame it: behind blank lines, among further lines of its header. -/
structure Frame where
  blanks : List Text
  before : List Text
  name : Text
  after : List Text
  body : List UInt8
  blank : ∀ line ∈ blanks, BlankLine line
  further : ∀ line ∈ before ++ after, FurtherLine line
  named : equalIgnoreCase name "Content-Length".toList
  fits : body.length ≤ maxFrameBytes

namespace Frame

def lines (frame : Frame) : List Text :=
  frame.blanks ++ (frame.before ++ lengthLine frame.name frame.body.length :: frame.after)

def bytes (frame : Frame) : List UInt8 :=
  frame.lines.flatMap lineBytes ++ (lineBytes [] ++ frame.body)

theorem run (frame : Frame) : HeaderRun none frame.lines (some frame.body.length) := by
  obtain ⟨before, after⟩ := List.forall_mem_append.mp frame.further
  have bound : frame.body.length < 18446744073709551616 :=
    Nat.lt_of_le_of_lt frame.fits (by decide)
  exact (HeaderRun.blank frame.blank).append ((HeaderRun.further before).append
    (.cons (newline_not_mem_lengthLine frame.named) (headerLine_lengthLine frame.named bound none)
      (.further after)))

theorem readHeader_end (n : Nat) (rest : List UInt8) :
    readHeader (some n) (lineBytes [] ++ rest) = .ok (some (n, rest)) :=
  readHeader_ended (readLine_lineBytes List.not_mem_nil rest)
    (BlankLine.headerLine ⟨List.not_mem_nil, fun _ mem => absurd mem List.not_mem_nil⟩)

theorem reads (frame : Frame) : frameRecords.Reads frame.bytes frame.body := by
  intro rest
  have header : readHeader none (frame.bytes ++ rest) =
      .ok (some (frame.body.length, frame.body ++ rest)) := by
    rw [bytes, List.append_assoc, frame.run.readHeader, List.append_assoc, readHeader_end]
  have whole : ¬(frame.body ++ rest).length < frame.body.length := by
    rw [List.length_append]
    omega
  show readFrame (frame.bytes ++ rest) = _
  simp only [readFrame, header, if_neg (Nat.not_lt.mpr frame.fits), if_neg whole, List.take_left,
    List.drop_left]

end Frame

section

variable {fromSlice : List UInt8 → Option Value}

theorem readFrames_of_torn (empty : fromSlice [] = none) {reader : List UInt8}
    (torn : Torn none reader) : (readFrames fromSlice reader).filterMap ReaderEvent.value = [] := by
  have nothing : readFrames fromSlice [] = [] :=
    Records.events_none (by show readFrame [] = _; rw [readFrame, readHeader_nil])
  have read : frameRecords.next reader = readFrame reader := rfl
  rw [readFrame] at read
  split at read
  · rw [readFrames, Records.events_error read]
    rfl
  · rw [readFrames, Records.events_none read]
    rfl
  · next n rest header =>
    obtain rfl := torn n rest header
    split at read
    · rw [readFrames, Records.events_error read]
      rfl
    · split at read
      · rw [readFrames, Records.events_none read]
        rfl
      · rw [List.take_nil, List.drop_nil] at read
        rw [readFrames, Records.events_some read, empty]
        rw [readFrames] at nothing
        rw [nothing]
        rfl

theorem Frame.readFrames_take (empty : fromSlice [] = none) (frame : Frame) {n : Nat}
    (part : n < frame.bytes.length) :
    (readFrames fromSlice (frame.bytes.take n)).filterMap ReaderEvent.value = [] := by
  cases frame.run.take (lineBytes [] ++ frame.body) n with
  | inl torn => exact readFrames_of_torn empty torn
  | inr read =>
    have same := read.2
    by_cases inside : n - (frame.lines.flatMap lineBytes).length < (lineBytes []).length
    · refine readFrames_of_torn empty fun m rest found => ?_
      have single := newline_not_mem_take List.not_mem_nil inside
      rw [List.take_append_of_le_length (Nat.le_of_lt inside)] at same
      exact torn_of_unended single _ m rest (same.symm.trans found)
    · have behind : (lineBytes [] ++ frame.body).take (n - (frame.lines.flatMap lineBytes).length) =
          lineBytes [] ++ frame.body.take
            (n - (frame.lines.flatMap lineBytes).length - (lineBytes []).length) := by
        rw [List.take_append, List.take_of_length_le (Nat.le_of_not_lt inside)]
      rw [behind, Frame.readHeader_end] at same
      have short : (frame.body.take (n - (frame.lines.flatMap lineBytes).length -
          (lineBytes []).length)).length < frame.body.length := by
        rw [Frame.bytes, List.length_append, List.length_append] at part
        rw [List.length_take]
        omega
      have none : readFrame (frame.bytes.take n) = .ok none := by
        simp only [readFrame, Frame.bytes, same, if_neg (Nat.not_lt.mpr frame.fits), if_pos short]
      rw [readFrames, Records.events_none none]
      rfl

theorem readFrame_blank_take {trailing : List Text} (blank : ∀ line ∈ trailing, BlankLine line)
    (n : Nat) : Torn none ((trailing.flatMap lineBytes).take n) := by
  have cut := (HeaderRun.blank blank).take [] n
  rw [List.append_nil, List.take_nil, readHeader_nil] at cut
  cases cut with
  | inl torn => exact torn
  | inr read =>
    intro m rest found
    cases read.2.symm.trans found

end

def frameStream (frames : List Frame) (trailing : List Text) : List UInt8 :=
  frames.flatMap Frame.bytes ++ trailing.flatMap lineBytes

theorem sendBytes_frame {body : List UInt8} (fits : body.length ≤ maxFrameBytes) :
    ∃ frame : Frame, frame.body = body ∧ frame.bytes = sendBytes body := by
  refine ⟨⟨[], [], "Content-Length".toList, [], body, fun _ mem => absurd mem List.not_mem_nil,
    fun _ mem => absurd mem List.not_mem_nil, rfl, fits⟩, rfl, ?_⟩
  have start : "Content-Length: ".toList = "Content-Length".toList ++ [':', ' '] := by decide
  have stop : "\r\n\r\n".toList = ['\r', '\n', '\r', '\n'] := by decide
  simp only [Frame.bytes, Frame.lines, lineBytes, lengthLine, sendBytes, bytes_toList, start, stop,
    List.nil_append, List.flatMap_append, List.flatMap_cons, List.flatMap_nil, List.cons_append,
    List.append_assoc]

/-- Of frames on a stream just the values of the bodies that are read are delivered, and if the
stream is cut, just those of the frames that are whole. What `send` writes is such a frame. -/
theorem readFrames_frameStream {fromSlice : List UInt8 → Option Value}
    (empty : fromSlice [] = none) :
    (∀ body : List UInt8, body.length ≤ maxFrameBytes →
      ∃ frame : Frame, frame.body = body ∧ frame.bytes = sendBytes body) ∧
    ∀ (frames : List Frame) (trailing : List Text), (∀ line ∈ trailing, BlankLine line) →
      readFrames fromSlice (frameStream frames trailing) =
        (frames.filterMap fun frame => fromSlice frame.body).map .message ∧
      ∀ n, (readFrames fromSlice ((frameStream frames trailing).take n)).filterMap
          ReaderEvent.value =
        (Cuts.fit (fun frame => frame.bytes.length) n frames).filterMap
          fun frame => fromSlice frame.body := by
  refine ⟨fun _ fits => sendBytes_frame fits, fun frames trailing blank => ⟨?_, fun n => ?_⟩⟩
  · have none : frameRecords.next (trailing.flatMap lineBytes) = .ok none := by
      have ended := (HeaderRun.blank blank).readHeader []
      rw [List.append_nil, readHeader_nil] at ended
      show readFrame _ = _
      rw [readFrame, ended]
    rw [readFrames, frameStream, Records.events_flatMap fun frame _ => frame.reads,
      Records.events_none none, List.append_nil, List.map_filterMap]
  · rw [readFrames, frameStream, Records.events_take ReaderEvent.value (fun frame _ => frame.reads)
      (fun frame _ n part => frame.readFrames_take empty part)
      fun n => readFrames_of_torn empty (readFrame_blank_take blank n)]
    refine List.filterMap_congr fun frame _ => ?_
    cases fromSlice frame.body with
    | none => rfl
    | some value => rfl

namespace Sample

def skippedFrame : Frame where
  blanks := [[]]
  before := ["Content-Type: x".toList]
  name := "content-LENGTH".toList
  after := []
  body := [110, 111, 112]
  blank := by
    intro line mem
    obtain rfl := List.mem_singleton.mp mem
    exact ⟨List.not_mem_nil, fun _ mem => absurd mem List.not_mem_nil⟩
  further := by
    intro line mem
    obtain rfl := List.mem_singleton.mp mem
    refine ⟨by decide, by decide, fun name value parts => ?_⟩
    have split : splitOnce ':' (trim "Content-Type: x".toList) =
      some ("Content-Type".toList, " x".toList) := by decide
    cases split.symm.trans parts
    decide
  named := by decide
  fits := by decide

def keptFrame : Frame where
  blanks := []
  before := []
  name := "Content-Length".toList
  after := []
  body := [91, 93]
  blank := fun _ mem => absurd mem List.not_mem_nil
  further := fun _ mem => absurd mem List.not_mem_nil
  named := rfl
  fits := by decide

def fromSlice (body : List UInt8) : Option Value :=
  if body = [91, 93] then some (.array .nil) else none

end Sample

theorem readFrames_skips_unparsable :
    readFrames Sample.fromSlice (frameStream [Sample.skippedFrame, Sample.keptFrame] [[]]) =
      [.message (.array .nil)] := by
  have blank : ∀ line ∈ [[]], BlankLine line := by
    intro line mem
    obtain rfl := List.mem_singleton.mp mem
    exact ⟨List.not_mem_nil, fun _ mem => absurd mem List.not_mem_nil⟩
  exact ((@readFrames_frameStream Sample.fromSlice rfl).2 _ _ blank).1

end CodeWeave
