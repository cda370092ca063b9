import CodeWeave.Defs.Intelligence.Protocol
import CodeWeave.Defs.Intelligence.Sync
import CodeWeave.Defs.Intelligence.WorkerError

namespace CodeWeave

/-- One slice of the wait for a message: what the worker finds when it looks. -/
structure Slice where
  stopping : Bool
  remaining : Nat
  received : Except TransportError Value
  stderrTail : Option Text

/-- What has passed between a process and the worker. A received message is kept
with the document whose diagnostics the loop that took it waits for. -/
inductive Exchange
  | sent (message : Value)
  | received (message : Value) (awaiting : Option Text)
  | reported (uri : Text) (diagnostics : Value)
  deriving DecidableEq

structure Process where
  sends : List (Except (TransportError × Option Text) Unit)
  waits : List (List Slice)

/-- A process and, read by no function, the exchanges with it so far. -/
structure Transport extends Process where
  history : List Exchange

structure Server where
  transport : Transport
  capabilities : ServerCapabilities
  nextId : Nat
  documents : Documents
  diagnostics : Table Text Value

structure RequestContext where
  codec : UriCodec
  language : String
  processId : Nat
  clientVersion : Text

inductive WorkerOperation
  | definition (position : Position)
  | references (position : Position)
  | rename (position : Position) (newName : Text)
  | diagnostics
  deriving DecidableEq

namespace WorkerOperation

def capabilityName : WorkerOperation → String
  | .definition _ => "definition"
  | .references _ => "references"
  | .rename _ _ => "rename"
  | .diagnostics => "diagnostics"

def method : WorkerOperation → String
  | .definition _ => "textDocument/definition"
  | .references _ => "textDocument/references"
  | .rename _ _ => "textDocument/rename"
  | .diagnostics => "textDocument/diagnostic"

end WorkerOperation

structure WorkerResponse where
  result : Value
  synchronized : SynchronizedDocument
  capabilities : ServerCapabilities
  deriving DecidableEq

abbrev ServerM := EStateM WorkerError Server

def publishedDiagnostics (message : Value) : Option (Text × Value) :=
  if (message.get "method").bind Value.asStr ≠ some "textDocument/publishDiagnostics".toList then
    none
  else do
    let params ← message.get "params"
    let uri ← (params.get "uri").bind Value.asStr
    let diagnostics ← params.get "diagnostics"
    some (uri, diagnostics)

def diagnosticReportItems (report : Value) : Except WorkerError Value :=
  match report.asArray with
  | some _ => .ok report
  | none =>
    match (report.get "items").filter fun items => items.asArray.isSome with
    | some items => .ok items
    | none => .error (.protocol
        "Language-server diagnostic response does not contain an items array"
        (some (.json (json [("response", report)]))))

/-- Published URIs may differ from the requested one in escaping or Windows drive
casing; compare the workspace paths they name. -/
def diagnosticUriMatches (codec : UriCodec) (requested published : Text) : Bool :=
  requested = published ||
    match codec.relative requested, codec.relative published with
    | .ok requested, .ok published => requested = published
    | _, _ => false

def receiveSlice : Nat := 100

def receiveBefore (language : String) : List Slice → Except WorkerError Value
  | [] => .error (.fromTransport .timedOut language none)
  | slice :: rest =>
    if slice.stopping then .error .stopped
    else if slice.remaining = 0 then .error (.fromTransport .timedOut language slice.stderrTail)
    else match slice.received with
      | .ok message => .ok message
      | .error .timedOut =>
        if receiveSlice < slice.remaining then receiveBefore language rest
        else .error (.fromTransport .timedOut language slice.stderrTail)
      | .error error => .error (.fromTransport error language slice.stderrTail)

namespace Server

def withTransport (server : Server) (change : Transport → Transport) : Server :=
  { server with transport := change server.transport }

def record (server : Server) (exchange : Exchange) : Server :=
  server.withTransport fun transport =>
    { transport with history := transport.history ++ [exchange] }

def cache (server : Server) (uri : Text) (diagnostics : Value) : Server :=
  { server with diagnostics := server.diagnostics.insert uri diagnostics }

variable (context : RequestContext)

-- A process with no send left has closed its input.
def notify (message : Value) : ServerM Unit := do
  match (← get).transport.sends with
  | [] => throw (.fromTransport .disconnected context.language none)
  | sending :: rest =>
    modify fun server => server.withTransport fun transport => { transport with sends := rest }
    match sending with
    | .error (error, tail) => throw (.fromTransport error context.language tail)
    | .ok () => modify fun server => server.record (.sent message)

def receive (awaiting : Option Text) (wait : List Slice) (rest : List (List Slice)) :
    ServerM Value := do
  modify fun server => server.withTransport fun transport => { transport with waits := rest }
  let message ← MonadExcept.ofExcept (receiveBefore context.language wait)
  modify fun server => server.record (.received message awaiting)
  pure message

def answerServerRequest (message : Value) : ServerM Unit :=
  match message.get "id", (message.get "method").bind Value.asStr with
  | some id, some method =>
    notify context (json [
      ("jsonrpc", .str "2.0"),
      ("id", id),
      ("result", serverRequestResult context.codec method (message.field "params"))])
  | _, _ => pure ()

def handleMessage (message : Value) : ServerM Unit :=
  match publishedDiagnostics message with
  | some (published, diagnostics) => modify fun server => server.cache published diagnostics
  | none => answerServerRequest context message

def isResponse (id : Nat) (message : Value) : Bool :=
  (message.get "id").bind Value.asU64 = some id && (message.get "method").isNone

def responseResult (message : Value) : Except WorkerError Value :=
  match message.get "error" with
  | some error => .error (.server context.language error)
  | none =>
    match message.get "result" with
    | some result => .ok result
    | none => .error (.protocol "JSON-RPC response contains neither result nor error" none)

-- The loop of `request`, along the waits to come.
def awaitResponse (id : Nat) : List (List Slice) → ServerM Value
  | [] => throw (.fromTransport .timedOut context.language none)
  | wait :: rest => do
    let message ← receive context none wait rest
    if isResponse id message then MonadExcept.ofExcept (responseResult context message)
    else
      handleMessage context message
      awaitResponse id rest

def requestMessage (id : Nat) (method : String) (params : Value) : Value :=
  json [("jsonrpc", .str "2.0"), ("id", .number id), ("method", .str method), ("params", params)]

def request (method : String) (params : Value) : ServerM Value := do
  let id := (← get).nextId
  modify fun server => { server with nextId := id + 1 }
  notify context (requestMessage id method params)
  awaitResponse context id (← get).transport.waits

-- The loop of `diagnostics_for`.
def awaitDiagnostics (uri : Text) : List (List Slice) → ServerM Value
  | [] => throw (.fromTransport .timedOut context.language none)
  | wait :: rest => do
    let message ← receive context (some uri) wait rest
    match publishedDiagnostics message with
    | some (published, diagnostics) =>
      modify fun server => server.cache published diagnostics
      if diagnosticUriMatches context.codec uri published then
        modify fun server => server.cache uri diagnostics
        pure diagnostics
      else awaitDiagnostics uri rest
    | none =>
      answerServerRequest context message
      awaitDiagnostics uri rest

def diagnosticsFor (uri : Text) : ServerM Value := do
  let server ← get
  match server.diagnostics.lookup uri with
  | some cached => pure cached
  | none =>
    if server.capabilities.pullDiagnosticsProvider then
      let report ← request context "textDocument/diagnostic"
        (json [("textDocument", json [("uri", .string uri)])])
      let diagnostics ← MonadExcept.ofExcept (diagnosticReportItems report)
      modify fun server => (server.record (.reported uri diagnostics)).cache uri diagnostics
      pure diagnostics
    else awaitDiagnostics context uri server.transport.waits

def initializeServer (elapsedMs : Nat) : ServerM Unit := do
  let result ← request context "initialize"
    (initializeParams context.processId context.clientVersion context.codec.rootUri)
  match parseInitializeResult result elapsedMs with
  | .error error => throw (.protocol error.message error.details)
  | .ok capabilities =>
    modify fun server => { server with capabilities := capabilities }
    notify context
      (json [("jsonrpc", .str "2.0"), ("method", .str "initialized"), ("params", json [])])

def fresh (process : Process) : Server := ⟨⟨process, []⟩, .none, 1, ∅, ∅⟩

variable {contentHash : Text → ContentHash} (document : DocumentSnapshot contentHash)

def operationParams (encoding : PositionEncoding) (position : Position)
    (more : List (String × Value)) : Except WorkerError Value :=
  match positionParams document.uri document.content position encoding with
  | .error error => .error (.request error)
  | .ok params => .ok (json (params ++ more))

def synchronize : ServerM SynchronizedDocument := do
  let (sync, documents) := planSync document (← get).documents
  modify fun server => { server with documents := documents }
  match sync.notification with
  | none => pure sync.synchronized
  | some notification =>
    notify context notification
    if sync.changed then
      modify fun server => { server with diagnostics := server.diagnostics.erase document.uri }
    pure sync.synchronized

def answer (encoding : PositionEncoding) (operation : WorkerOperation) : ServerM Value :=
  match operation with
  | .diagnostics => diagnosticsFor context document.uri
  | .definition position => do
    let params ← MonadExcept.ofExcept (operationParams document encoding position [])
    request context operation.method params
  | .references position => do
    let params ← MonadExcept.ofExcept (operationParams document encoding position
      [("context", json [("includeDeclaration", .bool false)])])
    request context operation.method params
  | .rename position newName => do
    let params ← MonadExcept.ofExcept (operationParams document encoding position
      [("newName", .string newName)])
    request context operation.method params

def execute (operation : WorkerOperation) : ServerM WorkerResponse := do
  let capabilities := (← get).capabilities
  if ¬capabilities.supports operation.capabilityName then
    throw (.unsupported operation.capabilityName)
  else if capabilities.syncKind = .none then throw .syncUnsupported
  else
    let synchronized ← synchronize context document
    let result ← answer context document capabilities.positionEncoding operation
    pure ⟨result, synchronized, capabilities⟩

end Server

end CodeWeave
