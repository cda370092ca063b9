import CodeWeave.Defs.Workspace.Config

namespace CodeWeave

structure DocumentSnapshot (contentHash : Text → ContentHash) where
  uri : Text
  languageId : Text
  content : Text
  hash : ContentHash
  hashed : hash = contentHash content

def DocumentSnapshot.new (contentHash : Text → ContentHash) (uri languageId content : Text) :
    DocumentSnapshot contentHash :=
  ⟨uri, languageId, content, contentHash content, rfl⟩

structure SynchronizedDocument where
  hash : ContentHash
  version : Int
  deriving DecidableEq

structure DocumentState where
  hash : ContentHash
  version : Int
  deriving DecidableEq

abbrev Documents := Table Text DocumentState

structure SyncPlan where
  notification : Option Value
  synchronized : SynchronizedDocument
  changed : Bool
  deriving DecidableEq

variable {contentHash : Text → ContentHash} (snapshot : DocumentSnapshot contentHash)

def DocumentSnapshot.didOpen : Value :=
  json [
    ("jsonrpc", .str "2.0"),
    ("method", .str "textDocument/didOpen"),
    ("params", json [
      ("textDocument", json [
        ("uri", .string snapshot.uri),
        ("languageId", .string snapshot.languageId),
        ("version", .number 1),
        ("text", .string snapshot.content)])])]

def DocumentSnapshot.didChange (version : Int) : Value :=
  json [
    ("jsonrpc", .str "2.0"),
    ("method", .str "textDocument/didChange"),
    ("params", json [
      ("textDocument", json [("uri", .string snapshot.uri), ("version", .number version)]),
      ("contentChanges", .list [json [("text", .string snapshot.content)]])])]

def planSync (documents : Documents) : SyncPlan × Documents :=
  let (notification, version, changed) :=
    match documents.lookup snapshot.uri with
    | none => (some snapshot.didOpen, 1, true)
    | some state =>
      if state.hash ≠ snapshot.hash then
        (some (snapshot.didChange (state.version + 1)), state.version + 1, true)
      else (none, state.version, false)
  (⟨notification, ⟨snapshot.hash, version⟩, changed⟩,
    documents.insert snapshot.uri ⟨snapshot.hash, version⟩)

end CodeWeave
