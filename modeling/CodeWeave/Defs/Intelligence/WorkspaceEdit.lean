import CodeWeave.Defs.Intelligence.Session
import CodeWeave.Defs.Workspace.Edit

namespace CodeWeave

/-- One file's complete before/after text, guarded by the hash of `oldText`. -/
structure RenameChange (ws : Workspace) where
  path : Text
  oldText : Text
  newText : Text
  expectedHash : ContentHash
  guarded : expectedHash = ws.contentHash oldText

def RenameChange.toChange {ws : Workspace} (change : RenameChange ws) : Change :=
  .replace change.path change.oldText change.newText 1 (some change.expectedHash) none

def invalidEdit (message : String) : AppError := .new .invalidLspEdit message

def textDocumentEdits : List Value → AppResult (List (Text × Value))
  | [] => .ok []
  | item :: rest => do
    require (item.get "kind").isNone (.new .unsupportedWorkspaceEdit
      "LSP resource create/rename/delete operations are not supported")
    let uri ← okOr ((item.field "textDocument").field "uri").asStr
      (invalidEdit "TextDocumentEdit lacks a URI")
    let later ← textDocumentEdits rest
    .ok ((uri, item.field "edits") :: later)

-- The entries of `changes` come in the order of their URIs.
def editedDocuments (edit : Value) : AppResult (List (Text × Value)) := do
  let changes := ((edit.get "changes").bind Value.asObject).getD []
  let more ← textDocumentEdits (((edit.get "documentChanges").bind Value.asArray).getD [])
  let documents := changes.map (fun (uri, edits) => (uri.toList, edits)) ++ more
  require (documents ≠ []) (.new .unsupportedWorkspaceEdit
    "WorkspaceEdit contains no supported text edits")
  .ok documents

structure EditRange where
  start : Nat
  stop : Nat
  text : Text
  ordered : start ≤ stop
  deriving DecidableEq

def editRange (before : Text) (encoding : PositionEncoding) (item : Value) :
    AppResult EditRange := do
  let (startLine, startCharacter) ← lspPosition ((item.field "range").field "start")
  let (endLine, endCharacter) ← lspPosition ((item.field "range").field "end")
  let start ← offsetForServerPosition before startLine startCharacter encoding
  let stop ← offsetForServerPosition before endLine endCharacter encoding
  if backwards : stop < start then .error (invalidEdit "LSP edit range ends before it starts")
  else do
    let text ← okOr (item.field "newText").asStr (invalidEdit "LSP edit lacks newText")
    .ok ⟨start, stop, text, Nat.le_of_not_lt backwards⟩

def editRanges (before : Text) (encoding : PositionEncoding) : List Value → AppResult (List EditRange)
  | [] => .ok []
  | item :: rest => do
    let range ← editRange before encoding item
    let ranges ← editRanges before encoding rest
    .ok (range :: ranges)

def startsBefore (range other : EditRange) : Prop := range.start ≤ other.start

instance : DecidableRel startsBefore := fun _ _ => inferInstanceAs (Decidable (_ ≤ _))

def overlapping : List EditRange → Bool
  | range :: next :: rest => next.start < range.stop || overlapping (next :: rest)
  | _ => false

def replaceBytes (content : Text) (start stop : Nat) (text : Text) : Text :=
  takeBytes content start ++ text ++ dropBytes content stop

def editedText (before : Text) (encoding : PositionEncoding) (edits : Value) : AppResult Text := do
  let items ← okOr edits.asArray (invalidEdit "Edits must be an array")
  let ranges ← editRanges before encoding items
  let sorted := ranges.insertionSort startsBefore
  require (!overlapping sorted) (.new .overlappingLspEdits "LSP returned overlapping edits")
  .ok (sorted.foldr (fun range after => replaceBytes after range.start range.stop range.text) before)

namespace Interleaving

variable {ws : Workspace} (moments : Interleaving ws) (codec : UriCodec)

def compiledEntry (encoding : PositionEncoding) (files : ResultFiles) (entry : Text × Value) :
    AppResult (RenameChange ws × ResultFiles) := do
  let path ← codec.relative entry.1
  let (file, files) ← moments.content files path
  let after ← editedText file.text encoding entry.2
  .ok (⟨path, file.text, after, ws.contentHash file.text, rfl⟩, files)

def compiledEntries (encoding : PositionEncoding) :
    ResultFiles → List (Text × Value) → AppResult (List (RenameChange ws) × ResultFiles)
  | files, [] => .ok ([], files)
  | files, entry :: rest => do
    let (change, files) ← moments.compiledEntry codec encoding files entry
    let (changes, files) ← compiledEntries encoding files rest
    .ok (change :: changes, files)

def workspaceEditChanges (files : ResultFiles) (edit : Value) (encoding : PositionEncoding) :
    AppResult (List (RenameChange ws) × ResultFiles) := do
  let documents ← editedDocuments edit
  moments.compiledEntries codec encoding files documents

end Interleaving

end CodeWeave
