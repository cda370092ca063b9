import CodeWeave.Defs.Error

namespace CodeWeave

/-! Offsets count characters. A line starts at a character boundary, so they cut
a text where the byte offsets of the code cut it. -/

def lineOffsetFrom (line : Nat) : Text → Nat → Nat → Nat
  | [], offset, _ => offset
  | c :: rest, offset, current =>
    if c = '\n' then
      if current + 1 = line then offset + 1 else lineOffsetFrom line rest (offset + 1) (current + 1)
    else lineOffsetFrom line rest (offset + 1) current

def lineOffset (content : Text) (line : Nat) : Nat :=
  if line ≤ 1 then 0 else lineOffsetFrom line content 0 1

def lineRange (content : Text) (startLine endLine : Nat) : AppResult (Nat × Nat) :=
  if startLine > endLine then
    .error (.withDetails .invalidHandleRange
      "Handle start_line must be less than or equal to end_line" (.range startLine endLine))
  else
    .ok (min (lineOffset content startLine) content.length,
      min (lineOffset content (endLine + 1)) content.length)

def slice (content : Text) (start stop : Nat) : Text := (content.take stop).drop start

def replaceRange (content : Text) (start stop : Nat) (replacement : Text) : Text :=
  content.take start ++ replacement ++ content.drop stop

inductive LineEnding
  | none
  | crlf
  | lf
  | mixed
  deriving DecidableEq

def countCrlf : Text → Nat
  | '\r' :: '\n' :: rest => countCrlf rest + 1
  | _ :: rest => countCrlf rest
  | [] => 0

def lineEndingLabel (content : Text) : LineEnding :=
  let crlf := countCrlf content
  let lf := content.count '\n' - crlf
  let cr := content.count '\r' - crlf
  if crlf = 0 ∧ lf = 0 ∧ cr = 0 then .none
  else if lf = 0 ∧ cr = 0 ∧ crlf > 0 then .crlf
  else if crlf = 0 ∧ cr = 0 ∧ lf > 0 then .lf
  else .mixed

def crlfToLf : Text → Text
  | '\r' :: '\n' :: rest => '\n' :: crlfToLf rest
  | c :: rest => c :: crlfToLf rest
  | [] => []

def normalizeLineEndings (text replacement : Text) : Text :=
  ((crlfToLf text).map fun c => if c = '\r' then '\n' else c).flatMap fun c =>
    if c = '\n' then replacement else [c]

def normalizeLineEndingsForContent (content text : Text) : Text :=
  match lineEndingLabel content with
  | .crlf => normalizeLineEndings text ['\r', '\n']
  | .lf => normalizeLineEndings text ['\n']
  | _ => text

def preserveTerminalLineEnding (selected replacement : Text) : Text :=
  if replacement = [] ∨ ['\n'] <:+ replacement ∨ ¬['\n'] <:+ selected then replacement
  else if ['\r', '\n'] <:+ selected then replacement ++ ['\r', '\n']
  else replacement ++ ['\n']

def replacenFrom (pattern replacement : Text) : Text → Nat → Nat → Text
  | [], skip, count => if pattern = [] ∧ skip = 0 ∧ 0 < count then replacement else []
  | text, 0, 0 => text
  | c :: rest, 0, count + 1 =>
    if pattern = [] then replacement ++ c :: replacenFrom pattern replacement rest 0 count
    else if pattern.isPrefixOf (c :: rest) then
      replacement ++ replacenFrom pattern replacement rest (pattern.length - 1) count
    else c :: replacenFrom pattern replacement rest 0 (count + 1)
  | _ :: rest, skip + 1, count => replacenFrom pattern replacement rest skip count

def replacen (text pattern replacement : Text) (count : Nat) : Text :=
  replacenFrom pattern replacement text 0 count

def matchingOldText (content selected old : Text) (expected : Nat) : Text × Nat :=
  let normalized := normalizeLineEndingsForContent content old
  if normalized ≠ old ∧ (matchIndices selected normalized).length = expected then
    (normalized, expected)
  else (old, (matchIndices selected old).length)

example : replacen "a--b--c".toList "--".toList "+".toList 1 = "a+b--c".toList := by decide

end CodeWeave
