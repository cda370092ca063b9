import CodeWeave.Defs.Bash.Output
import CodeWeave.Defs.Index.Discovery
import CodeWeave.Defs.Workspace.Fetch

namespace CodeWeave

inductive SearchTarget
  | text (query : TextQuery)
  | filename (query : FilenameQuery)
  | symbol (query : SymbolQuery)
  | repoMap

structure SearchRequest where
  target : SearchTarget
  paths : List Text
  maxResults : Nat

inductive RetrievalTarget
  | file (target : ReadTarget)
  | symbol (name : Text) (path : Option Text) (contextLines : Nat) (includeImports : Bool)
  | bashLog (value : Text)

structure ReadOperation where
  target : RetrievalTarget
  maxChars : Nat
  compact : Bool

inductive PreparedRetrievalOperation
  | search (request : SearchRequest)
  | read (operation : ReadOperation)

def protocolMaxResults : Nat := 200

structure ResultLimits where
  requested : Nat
  applied : Nat
  configuredMax : Nat

namespace ResultLimits

def new (requested configuredMax : Nat) : ResultLimits :=
  ⟨requested, min (min requested protocolMaxResults) configuredMax, configuredMax⟩

variable (limits : ResultLimits)

def message : Text :=
  if limits.configuredMax < protocolMaxResults then
    "Requested ".toList ++ decimal limits.requested ++
      " results; the effective configured maximum is ".toList ++ decimal limits.configuredMax ++ ['.']
  else
    "Requested ".toList ++ decimal limits.requested ++ " results; protocol maximum is ".toList ++
      decimal protocolMaxResults ++ ['.']

def addTo (result : Value) : Value :=
  let result := result.insert "limits" (json [("requested_results", .number limits.requested),
    ("protocol_max_results", .number protocolMaxResults),
    ("configured_max_results", .number limits.configuredMax),
    ("applied_results", .number limits.applied), ("configured_default_results", .number 20)])
  if limits.applied < limits.requested then
    result.insert "warnings" (.list [json [("code", .str "MAX_RESULTS_CLAMPED"),
      ("message", .string limits.message)]])
  else result

end ResultLimits

def LineEnding.asStr : LineEnding → String
  | .none => "none"
  | .crlf => "crlf"
  | .lf => "lf"
  | .mixed => "mixed"

namespace FetchResponse

variable (response : FetchResponse)

def boundedFields : List (String × Value) :=
  [("content", .string response.content), ("offset", .number response.offset),
    ("total_chars", .number response.totalChars),
    ("continuation", (response.continuation.map Value.string).getD .null)]

def fields : List (String × Value) :=
  [("path", .string response.path), ("hash", .string response.hash),
    ("line_ending", .str response.lineEnding.asStr), ("start_line", .number response.startLine),
    ("end_line", .number response.endLine), ("handle", .string response.handle)] ++
      response.boundedFields

def blank : FetchResponse := ⟨[], [], .none, 0, 0, [], [], 0, 0, none⟩

end FetchResponse

def compactFields : List String :=
  ["kind", "path", "hash", "content", "line_ending", "run_id", "status", "exit_code", "output",
    "output_truncated", "language", "document_type", "line_count", "size", "modified_ns", "imports"]

def compactFetchResult (result : Value) : Value :=
  json (compactFields.filterMap fun field => (result.get field).map fun value => (field, value))

def importStarts : List Text :=
  ["use ".toList, "pub use ".toList, "extern crate ".toList, "import ".toList, "from ".toList,
    "package ".toList]

def lexicalImportPrelude (file : FileEntry) (beforeLine : Nat) : List Value :=
  (((CodeWeave.lines file.content).take (beforeLine - 1)).zipIdx.filter fun numbered =>
    importStarts.any fun start => start <+: numbered.1.dropWhile isWhitespace).map fun numbered =>
      json [("line", .number (numbered.2 + 1)), ("text", .string numbered.1)]

/-- What retrieval operations read: a view of the index, and the Bash runs. -/
structure RetrievalView (ws : Workspace) where
  index : CodeIndex
  snapshotId : SnapshotId
  engine : GlobEngine
  encoder : HandleEncoder ws
  codec : FetchContinuationCodec
  runs : RunTable
  outputs : RunId → RunOutput
  maxSearchResults : Nat
  reconcilePending : Bool

namespace RetrievalView

variable {ws : Workspace} (view : RetrievalView ws)

def searchScope (request : SearchRequest) (maxResults : Nat) : SearchScope :=
  ⟨ws.id, view.snapshotId, request.paths, maxResults⟩

def search (request : SearchRequest) (maxResults : Nat) : AppResult Value :=
  let scope := view.searchScope request maxResults
  match request.target with
  | .text query =>
    (view.index.searchText view.encoder view.engine.toRegexEngine scope query).map TextResponse.json
  | .filename query => view.index.searchFilenames view.engine scope query
  | .symbol query => .ok (view.index.searchSymbols view.encoder scope query)
  | .repoMap => .ok (view.index.repoMap scope)

def resultLimits (request : SearchRequest) : ResultLimits :=
  .new request.maxResults view.maxSearchResults

def executeIndexSearch (request : SearchRequest) : AppResult Value := do
  let limits := view.resultLimits request
  let result ← view.search request limits.applied
  .ok (limits.addTo (result.insert "reconcile_pending" (.bool view.reconcilePending)))

def readOutput (runId : RunId) : AppResult Text := do
  let _ ← view.runs.get runId
  .ok ((view.outputs runId).stream .combined).retained

def qualifiedSymbol (name : Text) (requestedPath : Option Text) : Option Text × Text :=
  match requestedPath with
  | some path => (some path, name)
  | none =>
    match (matchIndices name "::".toList).head? with
    | none => (none, name)
    | some colons =>
      let path := name.take colons
      let leaf := name.drop (colons + 2)
      if leaf ≠ [] ∧ (view.index.get path).isSome then (some path, leaf) else (none, name)

def candidateJson (candidate : SymbolDefinition) : Value :=
  json [("path", .string candidate.path), ("symbol", .string candidate.symbol.name),
    ("kind", .string candidate.symbol.kind), ("start_line", .number candidate.symbol.startLine),
    ("end_line", .number candidate.symbol.endLine), ("signature", .string candidate.symbol.signature),
    ("handle", .string (encodeHandle view.encoder ⟨ws.id, candidate.path,
      candidate.symbol.startLine, candidate.symbol.endLine, candidate.hash⟩))]

def declaredSymbol (name : Text) (requestedPath : Option Text) : AppResult (FileEntry × Symbol) :=
  let (path, leaf) := view.qualifiedSymbol name requestedPath
  let pathValue := (path.map Value.string).getD .null
  let candidates := match path with
    | some path => view.index.findSymbolsAt path leaf
    | none => view.index.findSymbols leaf
  match candidates with
  | [] => .error (.withDetails .symbolNotFound "Symbol not found"
      (.json (json [("symbol", .string leaf), ("path", pathValue)])))
  | [found] =>
    match view.index.get found.path with
    | none => .error (.withDetails .pathNotIndexed "Symbol path is not indexed"
        (.json (json [("path", .string found.path), ("symbol", .string leaf)])))
    | some file => .ok (file, found.symbol)
  | candidates => .error (.withDetails .ambiguousSymbol
      "Symbol name matches multiple declarations; specify path or fetch a candidate handle"
      (.json (json [("symbol", .string leaf),
        ("candidates", .list ((candidates.take 20).map view.candidateJson))])))

def surroundedScope (file : FileEntry) (symbol : Symbol) (contextLines : Nat) : FetchScope :=
  .lines (max (symbol.startLine - contextLines) 1)
    (min (symbol.endLine + contextLines) (max (CodeWeave.lines file.content).length 1))

def fetchSymbol (name : Text) (requestedPath : Option Text) (limit contextLines : Nat)
    (includeImports : Bool) : AppResult Value := do
  let (file, symbol) ← view.declaredSymbol name requestedPath
  let response := ws.buildFetchResponse view.codec view.encoder file
    (surroundedScope file symbol contextLines) 0 limit
  let imports := if includeImports then
      [("imports", .list (lexicalImportPrelude file (max (symbol.startLine - contextLines) 1)))]
    else []
  .ok (json (response.fields ++ ("symbol", symbol.json) :: imports))

def logId (value : Text) : RunId := (stripPrefix "bash-log:".toList value).getD value

def readTarget (remaining : Nat) : RetrievalTarget → AppResult Value
  | .file target =>
    (ws.readTarget view.codec view.encoder view.index remaining target).map fun response =>
      json response.fields
  | .symbol name path contextLines includeImports =>
    view.fetchSymbol name path remaining contextLines includeImports
  | .bashLog value => do
    let runId := logId value
    let content ← view.readOutput runId
    let page := boundedContent .blank content 0 remaining fun _ => []
    .ok (json ([("kind", .str "bash_log"), ("run_id", .string runId)] ++
      { page with continuation := none }.boundedFields))

def executeRead (operation : ReadOperation) (remaining : Nat) : AppResult Value := do
  let result ← view.readTarget remaining operation.target
  if operation.compact then .ok (compactFetchResult result) else .ok result

def executeRetrievalOperation : PreparedRetrievalOperation → AppResult Value
  | .search request => view.executeIndexSearch request
  | .read operation => view.executeRead operation operation.maxChars

end RetrievalView

end CodeWeave
