import CodeWeave.Defs.Index.Query
import CodeWeave.Defs.Workspace.Edit

namespace CodeWeave

inductive FetchScope
  | full
  | lines (startLine endLine : Nat)
  deriving DecidableEq

structure FetchContinuation where
  workspaceId : Text
  path : Text
  offset : Nat
  contentHash : ContentHash
  scope : FetchScope
  deriving DecidableEq

structure FetchContinuationCodec where
  encode : FetchContinuation → Text
  decode : Text → AppResult FetchContinuation
  decode_encode : ∀ continuation, decode (encode continuation) = .ok continuation

def encodeFetchContinuation (codec : FetchContinuationCodec) (value : FetchContinuation) : Text :=
  "fetch:".toList ++ codec.encode value

def decodeFetchContinuation (codec : FetchContinuationCodec) (value : Text) :
    AppResult FetchContinuation :=
  match stripPrefix "fetch:".toList value with
  | none => .error (.new .invalidContinuation "Unsupported continuation")
  | some payload => codec.decode payload

structure FetchPrecondition where
  expectedHash : ContentHash
  missingCode : ErrorCode
  missingMessage : String
  staleCode : ErrorCode
  staleMessage : String

structure FetchResponse where
  path : Text
  hash : ContentHash
  lineEnding : LineEnding
  startLine : Nat
  endLine : Nat
  handle : Text
  content : Text
  offset : Nat
  totalChars : Nat
  continuation : Option Text

inductive ReadTarget
  | path (path : Text) (startLine endLine : Option Nat)
  | handle (value : Text)
  | continuation (value : Text)
  deriving DecidableEq

def scopeFromBounds (start finish : Option Nat) : FetchScope :=
  if start = none ∧ finish = none then .full
  else
    let startLine := max (start.getD 1) 1
    .lines startLine (max (finish.getD 18446744073709551615) startLine)

def FetchScope.select (file : FileEntry) : FetchScope → Text × Nat × Nat
  | .full => (file.content, 1, max (CodeWeave.lines file.content).length 1)
  | .lines startLine endLine =>
    let lineCount := max (CodeWeave.lines file.content).length 1
    let startLine := min (max startLine 1) lineCount
    let endLine := min (max endLine startLine) lineCount
    (sliceLines file.content startLine endLine, startLine, endLine)

def floorCharBoundary (content : Text) (offset : Nat) : Nat := utf8Count (takeBytes content offset)

-- A limit is small enough that the addition does not saturate.
def boundedContent (base : FetchResponse) (content : Text) (offset limit : Nat)
    (continuation : Nat → Text) : FetchResponse :=
  let start := floorCharBoundary content offset
  let stop := floorCharBoundary content (start + limit)
  { base with
    content := dropBytes (takeBytes content stop) start
    offset := start
    totalChars := utf8Count content
    continuation := if stop < utf8Count content then some (continuation stop) else none }

def maxReadMaxChars : Nat := 200000

namespace Workspace

variable (ws : Workspace) (codec : FetchContinuationCodec) (encoder : HandleEncoder ws)

def buildFetchResponse (file : FileEntry) (scope : FetchScope) (offset limit : Nat) :
    FetchResponse :=
  let (content, startLine, endLine) := scope.select file
  let base : FetchResponse :=
    { path := file.path
      hash := file.hash
      lineEnding := lineEndingLabel file.content
      startLine := startLine
      endLine := endLine
      handle := encodeHandle encoder ⟨ws.id, file.path, startLine, endLine, file.hash⟩
      content := []
      offset := 0
      totalChars := 0
      continuation := none }
  boundedContent base content offset limit fun nextOffset =>
    encodeFetchContinuation codec ⟨ws.id, file.path, nextOffset, file.hash, scope⟩

def fetchIndexedPath (index : CodeIndex) (path : Text) (scope : FetchScope) (offset limit : Nat)
    (precondition : Option FetchPrecondition) : AppResult FetchResponse :=
  match index.get path with
  | none =>
    match precondition with
    | none => .error (.withDetails .pathNotIndexed "File is not indexed" (.path path))
    | some condition => .error (.new condition.missingCode condition.missingMessage)
  | some file =>
    match precondition with
    | none => .ok (ws.buildFetchResponse codec encoder file scope offset limit)
    | some condition =>
      if file.hash ≠ condition.expectedHash then
        .error (.withDetails condition.staleCode condition.staleMessage
          (.hashes file.path (some condition.expectedHash) (some file.hash)))
      else .ok (ws.buildFetchResponse codec encoder file scope offset limit)

def readTarget (index : CodeIndex) (remaining : Nat) : ReadTarget → AppResult FetchResponse
  | .path path startLine endLine =>
    ws.fetchIndexedPath codec encoder index path (scopeFromBounds startLine endLine) 0 remaining
      none
  | .handle value => do
    let handle ← ws.decodeHandle value
    require (handle.workspaceId = ws.id)
      (.new .invalidHandle "Handle belongs to another workspace")
    ws.fetchIndexedPath codec encoder index handle.path (.lines handle.startLine handle.endLine) 0
      remaining (some ⟨handle.contentHash, .staleHandle, "Handle path no longer exists", .staleHandle,
        "File changed after handle creation"⟩)
  | .continuation value => do
    let continuation ← decodeFetchContinuation codec value
    require (continuation.workspaceId = ws.id)
      (.new .invalidContinuation "Continuation belongs to another workspace")
    ws.fetchIndexedPath codec encoder index continuation.path continuation.scope
      continuation.offset remaining (some ⟨continuation.contentHash, .staleContinuation,
        "Continuation path no longer exists", .staleContinuation,
        "File changed after continuation creation"⟩)

def read (index : CodeIndex) (target : ReadTarget) (maxChars : Nat) : AppResult FetchResponse :=
  ws.readTarget codec encoder index (min maxChars maxReadMaxChars) target

end Workspace

end CodeWeave
