import CodeWeave.Defs.Intelligence.Server

namespace CodeWeave

inductive LspPreset
  | rust
  | python
  | typeScript
  deriving DecidableEq

def LspPreset.key : LspPreset → String
  | .rust => "rust"
  | .python => "python"
  | .typeScript => "typescript"

inductive Readiness
  | disabled
  | lazy
  | starting
  | ready
  deriving DecidableEq

structure WorkerStatus where
  readiness : Readiness
  restartCount : Nat
  lastError : Option String
  capabilities : Option ServerCapabilities
  synchronizedDocumentCount : Nat
  requestCount : Nat
  firstRequestMs : Option Nat
  lastRequestMs : Option Nat
  warmRequestSamplesMs : List Nat
  deriving DecidableEq

namespace WorkerStatus

def new (readiness : Readiness) : WorkerStatus := ⟨readiness, 0, none, none, 0, 0, none, none, []⟩

def latencySamples : Nat := 64

def recordLatency (status : WorkerStatus) (elapsedMs : Nat) : WorkerStatus :=
  let status := { status with
    requestCount := status.requestCount + 1
    lastRequestMs := some elapsedMs }
  if status.firstRequestMs.isNone then { status with firstRequestMs := some elapsedMs }
  else
    let samples := status.warmRequestSamplesMs ++ [elapsedMs]
    { status with
      warmRequestSamplesMs := if latencySamples < samples.length then samples.drop 1 else samples }

end WorkerStatus

structure Spawned where
  outcome : Except IoError Process
  elapsedMs : Nat

structure CommandIo where
  stopping : Bool
  expired : Bool
  -- whether a failed first attempt leaves time and no stop request
  retries : Bool
  first : Spawned
  second : Spawned
  elapsedMs : Nat

structure Command (contentHash : Text → ContentHash) where
  operation : WorkerOperation
  document : DocumentSnapshot contentHash
  io : CommandIo

inductive ServerState
  | stopped
  | ready (server : Server)

def ServerState.server? : ServerState → Option Server
  | .stopped => none
  | .ready server => some server

theorem ServerState.eq_ready {state : ServerState} {default : Server}
    (kept : state.server?.isSome) : state = .ready (state.server?.getD default) := by
  cases state with
  | stopped => cases kept
  | ready server => rfl

structure WorkerRuntime where
  status : WorkerStatus
  server : ServerState

namespace WorkerRuntime

variable (context : RequestContext) {contentHash : Text → ContentHash}

def new : WorkerRuntime := ⟨.new .lazy, .stopped⟩

def discards (error : WorkerError) : Bool := error.restartable || error = .stopped

def takeServer (spawned : Spawned) (worker : WorkerRuntime) :
    Except WorkerError Server × WorkerRuntime :=
  match worker.server with
  | .ready server => (.ok server, { worker with server := .stopped })
  | .stopped =>
    let worker := { worker with status := { worker.status with readiness := .starting } }
    match spawned.outcome with
    | .error error => (.error (.startFailed context.language error.message), worker)
    | .ok process =>
      match Server.initializeServer context spawned.elapsedMs (.fresh process) with
      | .error error _ => (.error error, worker)
      | .ok () server =>
        (.ok server, { worker with status := { worker.status with
          readiness := .ready
          capabilities := some server.capabilities } })

def executeOnce (operation : WorkerOperation) (document : DocumentSnapshot contentHash)
    (spawned : Spawned) (worker : WorkerRuntime) :
    Except WorkerError WorkerResponse × WorkerRuntime :=
  match takeServer context spawned worker with
  | (.error error, worker) => (.error error, worker)
  | (.ok server, worker) =>
    match Server.execute context document operation server with
    | .ok response server => (.ok response, { worker with server := .ready server })
    | .error error server =>
      if discards error then (.error error, worker)
      else (.error error, { worker with server := .ready server })

def recordSuccess (worker : WorkerRuntime) : WorkerRuntime :=
  let status := { worker.status with readiness := .ready, lastError := none }
  match worker.server with
  | .ready server =>
    { worker with status := { status with
      synchronizedDocumentCount := server.documents.keys.length } }
  | .stopped => { worker with status := status }

def recordFailure (error : WorkerError) (restarting : Bool) (worker : WorkerRuntime) :
    WorkerRuntime :=
  let status := { worker.status with lastError := some error.toAppError.message }
  let status :=
    if restarting then { status with restartCount := status.restartCount + 1 } else status
  match worker.server with
  | .stopped =>
    { worker with status := { status with
      readiness := .lazy
      capabilities := none
      synchronizedDocumentCount := 0 } }
  | .ready _ => { worker with status := status }

def recordResult {A : Type} (result : Except WorkerError A) (worker : WorkerRuntime) : WorkerRuntime :=
  match result with
  | .ok _ => worker.recordSuccess
  | .error error => worker.recordFailure error false

/-- Run once; after a restartable failure, retry once on a fresh server if the
deadline allows. -/
def executeWithRestart (command : Command contentHash) (worker : WorkerRuntime) :
    Except WorkerError WorkerResponse × WorkerRuntime :=
  let (first, worker) :=
    worker.executeOnce context command.operation command.document command.io.first
  let (result, worker) :=
    match first with
    | .error error =>
      if error.restartable && command.io.retries then
        (worker.recordFailure error true).executeOnce context command.operation command.document
          command.io.second
      else (.error error, worker)
    | .ok response => (.ok response, worker)
  (result, worker.recordResult result)

def run (command : Command contentHash) (worker : WorkerRuntime) :
    Except WorkerError WorkerResponse × WorkerRuntime :=
  if command.io.stopping then (.error .stopped, worker)
  else if command.io.expired then (.error (.timedOut context.language none), worker)
  else
    let (result, worker) := worker.executeWithRestart context command
    (result, { worker with status := worker.status.recordLatency command.io.elapsedMs })

def runAll (commands : List (Command contentHash)) (worker : WorkerRuntime) : WorkerRuntime :=
  commands.foldl (fun worker command => (worker.run context command).2) worker

def Step (worker : WorkerRuntime)
    (answered : Command contentHash × Except WorkerError WorkerResponse)
    (later : WorkerRuntime) : Prop :=
  worker.run context answered.1 = (answered.2, later)

end WorkerRuntime

/-! A process that answers what it is asked, to run the model with. -/

def RequestContext.plain : RequestContext where
  codec := .new false "/w".toList none
  language := "rust"
  processId := 1
  clientVersion := "1".toList

def Slice.message (message : Value) : Slice := ⟨false, 1000, .ok message, none⟩

def respond (id : Nat) (result : Value) : Value :=
  json [("jsonrpc", .str "2.0"), ("id", .number id), ("result", result)]

def advertise (capabilities : List (String × Value)) : Value :=
  json [("capabilities", json capabilities)]

def Process.answering (sends : Nat) (messages : List Value) : Process :=
  ⟨List.replicate sends (.ok ()), messages.map fun message => [.message message]⟩

def CommandIo.starting (process : Process) : CommandIo :=
  ⟨false, false, true, ⟨.ok process, 5⟩, ⟨.ok process, 5⟩, 7⟩

def uriA : Text := "file:///w/a".toList

end CodeWeave
