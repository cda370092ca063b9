import CodeWeave.Defs.Error

namespace CodeWeave

inductive PositionEncoding
  | utf8
  | utf16
  | utf32
  deriving DecidableEq

def PositionEncoding.parse (value : Option Text) : PositionEncoding :=
  if value = some "utf-8".toList then .utf8
  else if value = some "utf-32".toList then .utf32
  else .utf16

/-- A public position: one-based line, zero-based UTF-16 column. -/
structure Position where
  line : Nat
  column : Nat
  deriving DecidableEq

def invalidPosition (message : String) : AppError := .new .invalidLspPosition message

def lineContent (content : Text) (line : Nat) : AppResult Text :=
  match (content.splitOn '\n')[line]? with
  | some text => .ok text
  | none => .error (invalidPosition "LSP position line is outside the document")

def utf16Len (c : Char) : Nat := if c.toNat < 65536 then 1 else 2

def prefixForUtf16Column : Text → Nat → AppResult Text
  | _, 0 => .ok []
  | [], _ + 1 => .error (invalidPosition "UTF-16 column is outside the line")
  | c :: rest, column + 1 =>
    if column + 1 < utf16Len c then
      .error (invalidPosition "UTF-16 column splits a Unicode scalar value")
    else (prefixForUtf16Column rest (column + 1 - utf16Len c)).map (c :: ·)

def prefixForUtf8Column : Text → Nat → AppResult Text
  | _, 0 => .ok []
  | [], _ + 1 => .error (invalidPosition "UTF-8 column is outside a character boundary")
  | c :: rest, column + 1 =>
    if column + 1 < c.utf8Size then
      .error (invalidPosition "UTF-8 column is outside a character boundary")
    else (prefixForUtf8Column rest (column + 1 - c.utf8Size)).map (c :: ·)

def prefixForServerColumn (line : Text) (column : Nat) : PositionEncoding → AppResult Text
  | .utf8 => prefixForUtf8Column line column
  | .utf16 => prefixForUtf16Column line column
  | .utf32 =>
    if column ≤ line.length then .ok (line.take column)
    else .error (invalidPosition "UTF-32 column is outside the line")

def utf16Count : Text → Nat
  | [] => 0
  | c :: rest => utf16Len c + utf16Count rest

def serverCharacterFromUtf16 (content : Text) (oneBasedLine utf16Column : Nat)
    (encoding : PositionEncoding) : AppResult Nat := do
  let line ← lineContent content (oneBasedLine - 1)
  let start ← prefixForUtf16Column line utf16Column
  match encoding with
  | .utf8 => .ok (utf8Count start)
  | .utf16 => .ok utf16Column
  | .utf32 => .ok start.length

def utf16CharacterFromServer (content : Text) (zeroBasedLine serverColumn : Nat)
    (encoding : PositionEncoding) : AppResult Nat := do
  let line ← lineContent content zeroBasedLine
  let start ← prefixForServerColumn line serverColumn encoding
  .ok (utf16Count start)

def stripNewline (line : Text) : Text :=
  if line.getLast? = some '\n' then line.dropLast else line

-- The pieces before the line count the bytes up to it.
def selectLine : List Text → Nat → Nat → Option (Nat × Text)
  | [], _, _ => none
  | line :: _, 0, base => some (base, stripNewline line)
  | line :: rest, count + 1, base => selectLine rest count (base + utf8Count line)

def offsetForServerPosition (content : Text) (zeroBasedLine serverColumn : Nat)
    (encoding : PositionEncoding) : AppResult Nat := do
  let selected := (selectLine (splitInclusive content) zeroBasedLine 0).or
    (if zeroBasedLine = (lines content).length ∧ content.getLast? = some '\n' then
      some (utf8Count content, [])
    else none)
  let (base, line) ← okOr selected (.new .invalidLspEdit "Edit line is outside the file")
  let start ← prefixForServerColumn line serverColumn encoding
  .ok (base + utf8Count start)

def positionParams (uri content : Text) (position : Position) (encoding : PositionEncoding) :
    AppResult (List (String × Value)) := do
  let character ← serverCharacterFromUtf16 content position.line position.column encoding
  .ok
    [("textDocument", json [("uri", .string uri)]),
      ("position", json [
        ("line", .number (position.line - 1 : Nat)), ("character", .number character)])]

def lspPosition (value : Value) : AppResult (Nat × Nat) := do
  let line ← number "line"
  let character ← number "character"
  .ok (line, character)
where
  number (key : String) : AppResult Nat :=
    match (value.get key).bind Value.asU64 with
    | some number => .ok number
    | none => .error (.withDetails .invalidLspResponse ("LSP position lacks a numeric " ++ key)
        (.json (json [("position", value)])))

end CodeWeave
