import CodeWeave.Defs.Intelligence.Uri
import CodeWeave.Defs.Json
import CodeWeave.Lib.Records

namespace CodeWeave

def maxFrameBytes : Nat := 64 * 1024 * 1024

inductive ReaderEvent
  | message (value : Value)
  | fatal (message : Text)
  deriving DecidableEq

def ReaderEvent.value : ReaderEvent → Option Value
  | .message value => some value
  | .fatal _ => none

def untilNewline : List UInt8 → List UInt8 × List UInt8
  | [] => ([], [])
  | byte :: rest =>
    if byte = 10 then ([byte], rest)
    else
      let (line, rest) := untilNewline rest
      (byte :: line, rest)

/-- `BufRead::read_line` and what is left then, or nothing at the end and where the line is no
text. -/
def readLine (reader : List UInt8) : Option (Text × List UInt8) :=
  let read := untilNewline reader
  if read.1 = [] then none
  else (fromUtf8 ⟨read.1.toArray⟩).map fun line => (line, read.2)

theorem length_untilNewline (reader : List UInt8) :
    (untilNewline reader).1.length + (untilNewline reader).2.length = reader.length := by
  induction reader with
  | nil => rfl
  | cons byte rest ih =>
    rw [untilNewline]
    split
    · exact Nat.add_comm ..
    · simp only [List.length_cons]
      omega

theorem readLine_shorter {reader rest : List UInt8} {line : Text}
    (found : readLine reader = some (line, rest)) : rest.length < reader.length := by
  have total := length_untilNewline reader
  simp only [readLine] at found
  split at found
  · cases found
  · next nonempty =>
    obtain ⟨text, -, eq⟩ := Option.map_eq_some_iff.mp found
    have positive := List.length_pos_of_ne_nil nonempty
    rw [← (Prod.mk.inj eq).2]
    omega

/-- What a line does to the length a header has given so far: nothing is left of it when the
line ends the header. -/
def headerLine (length : Option Nat) (line : Text) : Except Text (Option (Option Nat)) :=
  let trimmed := trim line
  if trimmed = [] then if length.isSome then .ok none else .ok (some length)
  else
    match splitOnce ':' trimmed with
    | none => .ok (some length)
    | some (name, value) =>
      if equalIgnoreCase (trim name) "Content-Length".toList then
        match parseUsize (trim value) with
        | none => .error ("language server sent an invalid Content-Length: ".toList ++ value)
        | some parsed => .ok (some (some parsed))
      else .ok (some length)

def readHeader (length : Option Nat) (reader : List UInt8) :
    Except Text (Option (Nat × List UInt8)) :=
  match _found : readLine reader with
  | none => .ok none
  | some (line, rest) =>
    match headerLine length line with
    | .error message => .error message
    | .ok none => .ok (some (length.getD 0, rest))
    | .ok (some length) => readHeader length rest
termination_by reader.length
decreasing_by exact readLine_shorter ‹_›

def readFrame (reader : List UInt8) : Except Text (Option (List UInt8 × List UInt8)) :=
  match readHeader none reader with
  | .error message => .error message
  | .ok none => .ok none
  | .ok (some (length, rest)) =>
    if length > maxFrameBytes then
      .error ("language-server frame of ".toList ++ decimal length ++ " bytes exceeds the ".toList ++
        decimal maxFrameBytes ++ " byte limit".toList)
    else if rest.length < length then .ok none
    else .ok (some (rest.take length, rest.drop length))

section

variable {length : Option Nat} {reader rest : List UInt8} {line : Text}

theorem readHeader_none (found : readLine reader = none) : readHeader length reader = .ok none := by
  rw [readHeader]
  split
  · rfl
  · next found' => cases found.symm.trans found'

theorem readHeader_error {message : Text} (found : readLine reader = some (line, rest))
    (invalid : headerLine length line = .error message) :
    readHeader length reader = .error message := by
  rw [readHeader]
  split
  · next found' => cases found.symm.trans found'
  · next found' =>
    cases found.symm.trans found'
    rw [invalid]

theorem readHeader_ended (found : readLine reader = some (line, rest))
    (ended : headerLine length line = .ok none) :
    readHeader length reader = .ok (some (length.getD 0, rest)) := by
  rw [readHeader]
  split
  · next found' => cases found.symm.trans found'
  · next found' =>
    cases found.symm.trans found'
    rw [ended]

theorem readHeader_continues {length' : Option Nat} (found : readLine reader = some (line, rest))
    (continues : headerLine length line = .ok (some length')) :
    readHeader length reader = readHeader length' rest := by
  rw [readHeader]
  split
  · next found' => cases found.symm.trans found'
  · next found' =>
    cases found.symm.trans found'
    rw [continues]

theorem readHeader_shorter {n : Nat} {after : List UInt8}
    (found : readHeader length reader = .ok (some (n, after))) : after.length < reader.length := by
  induction size : reader.length using Nat.strongRecOn generalizing reader length with
  | ind m ih =>
    cases first : readLine reader with
    | none =>
      rw [readHeader_none first] at found
      cases found
    | some read =>
      obtain ⟨line, rest⟩ := read
      have shorter := readLine_shorter first
      cases outcome : headerLine length line with
      | error message =>
        rw [readHeader_error first outcome] at found
        cases found
      | ok ended =>
        cases ended with
        | none =>
          rw [readHeader_ended first outcome] at found
          cases found
          omega
        | some length' =>
          rw [readHeader_continues first outcome] at found
          exact (ih _ (by omega) found rfl).trans (by omega)

theorem readFrame_shorter {body : List UInt8}
    (found : readFrame reader = .ok (some (body, rest))) : rest.length < reader.length := by
  rw [readFrame] at found
  split at found
  · cases found
  · cases found
  · next header =>
    have shorter := readHeader_shorter header
    split at found
    · cases found
    · split at found
      · cases found
      · cases found
        rw [List.length_drop]
        omega

end

def frameRecords : Records UInt8 (List UInt8) Text where
  next := readFrame
  shorter := readFrame_shorter

/-- Read `Content-Length` frames until the end or an unrecoverable framing error. The parser of
the bodies is `serde_json`'s. -/
def readFrames (fromSlice : List UInt8 → Option Value) (reader : List UInt8) : List ReaderEvent :=
  frameRecords.events (fun body => (fromSlice body).map .message) .fatal reader

def sendBytes (body : List UInt8) : List UInt8 :=
  (Text.bytes ("Content-Length: ".toList ++ decimal body.length ++ "\r\n\r\n".toList)).data.toList ++
    body

end CodeWeave
