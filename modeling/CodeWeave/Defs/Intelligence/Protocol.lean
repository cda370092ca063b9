import CodeWeave.Defs.Intelligence.Position
import CodeWeave.Defs.Intelligence.Uri

namespace CodeWeave

inductive TextDocumentSyncKind
  | none
  | full
  | incremental
  deriving DecidableEq

def TextDocumentSyncKind.parse (value : Option Value) : TextDocumentSyncKind :=
  let numeric := (value.bind Value.asU64).or
    ((value.bind (Value.get "change")).bind Value.asU64)
  match numeric with
  | some 1 => .full
  | some 2 => .incremental
  | _ => .none

structure ServerCapabilities where
  referencesProvider : Bool
  definitionProvider : Bool
  renameProvider : Bool
  diagnosticsProvider : Bool
  pullDiagnosticsProvider : Bool
  syncKind : TextDocumentSyncKind
  positionEncoding : PositionEncoding
  serverName : Option Text
  serverVersion : Option Text
  initializationMs : Nat
  deriving DecidableEq

namespace ServerCapabilities

def none : ServerCapabilities :=
  ⟨false, false, false, false, false, .none, .utf16, .none, .none, 0⟩

def supports (capabilities : ServerCapabilities) : String → Bool
  | "definition" => capabilities.definitionProvider
  | "references" => capabilities.referencesProvider
  | "rename" => capabilities.renameProvider
  | "diagnostics" => capabilities.diagnosticsProvider
  | _ => false

end ServerCapabilities

def providerEnabled : Option Value → Bool
  | some (.bool value) => value
  | some (.object _) => true
  | _ => false

def initializeParams (processId : Nat) (version rootUri : Text) : Value :=
  json [
    ("processId", .number processId),
    ("rootUri", .string rootUri),
    ("workspaceFolders", .list [json [("uri", .string rootUri), ("name", .str "workspace")]]),
    ("capabilities", json [
      ("general", json [
        ("positionEncodings", .list [.str "utf-8", .str "utf-16", .str "utf-32"])]),
      ("workspace", json [("configuration", .bool true), ("workspaceFolders", .bool true)]),
      ("textDocument", json [
        ("synchronization", json [
          ("dynamicRegistration", .bool false), ("didSave", .bool false),
          ("willSave", .bool false), ("willSaveWaitUntil", .bool false)]),
        ("definition", json [("dynamicRegistration", .bool false), ("linkSupport", .bool true)]),
        ("references", json [("dynamicRegistration", .bool false)]),
        ("rename", json [("dynamicRegistration", .bool false), ("prepareSupport", .bool false)]),
        ("publishDiagnostics", json [
          ("relatedInformation", .bool true), ("versionSupport", .bool true),
          ("codeDescriptionSupport", .bool true), ("dataSupport", .bool true)]),
        ("diagnostic", json [("dynamicRegistration", .bool false)])])]),
    ("clientInfo", json [("name", .str "CodeWeave"), ("version", .string version)])]

def parseInitializeResult (result : Value) (initializationMs : Nat) :
    AppResult ServerCapabilities :=
  match result.get "capabilities" with
  | none => .error (.new .lspProtocolError "Initialize response does not contain capabilities")
  | some capabilities =>
    let serverInfo := result.get "serverInfo"
    .ok {
      referencesProvider := providerEnabled (capabilities.get "referencesProvider")
      definitionProvider := providerEnabled (capabilities.get "definitionProvider")
      renameProvider := providerEnabled (capabilities.get "renameProvider")
      diagnosticsProvider := providerEnabled (capabilities.get "diagnosticProvider") ||
        (capabilities.get "textDocumentSync").isSome
      pullDiagnosticsProvider := providerEnabled (capabilities.get "diagnosticProvider")
      syncKind := .parse (capabilities.get "textDocumentSync")
      positionEncoding := .parse ((capabilities.get "positionEncoding").bind Value.asStr)
      serverName := (serverInfo.bind (Value.get "name")).bind Value.asStr
      serverVersion := (serverInfo.bind (Value.get "version")).bind Value.asStr
      initializationMs := initializationMs }

def rootName (root : Text) : Text :=
  match (segments root).getLast? with
  | some name => if name = ['.', '.'] then "workspace".toList else name
  | none => "workspace".toList

def serverRequestResult (codec : UriCodec) (method : Text) (params : Value) : Value :=
  if method = "workspace/configuration".toList then
    let count := (((params.get "items").bind Value.asArray).map List.length).getD 0
    .list (List.replicate count .null)
  else if method = "workspace/workspaceFolders".toList then
    .list [json [("uri", .string codec.rootUri), ("name", .string (rootName codec.root))]]
  else if method = "workspace/applyEdit".toList then
    json [
      ("applied", .bool false),
      ("failureReason", .str "CodeWeave never applies server-initiated workspace edits")]
  else .null

end CodeWeave
