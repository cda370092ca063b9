import CodeWeave.Defs.Error

namespace CodeWeave

inductive TransportError
  | timedOut
  | disconnected
  | protocol (message : String)
  | io (message : String)
  deriving DecidableEq

inductive WorkerError
  | disabled (language : String)
  | busy (language : String)
  | stopped
  | startFailed (language : String) (message : String)
  | timedOut (language : String) (stderrTail : Option Text)
  | serverExited (language : String) (stderrTail : Option Text)
  | transport (message : String)
  | protocol (message : String) (details : Option Details)
  | server (language : String) (error : Value)
  | unsupported (operation : String)
  | syncUnsupported
  | request (error : AppError)
  deriving DecidableEq

namespace WorkerError

/-- Whether the server process should be discarded and the request retried on a
fresh one. -/
def restartable : WorkerError → Bool
  | .timedOut _ _ | .serverExited _ _ | .transport _ | .protocol _ _ => true
  | _ => false

def fromTransport (error : TransportError) (language : String) (stderrTail : Option Text) :
    WorkerError :=
  match error with
  | .timedOut => .timedOut language stderrTail
  | .disconnected => .serverExited language stderrTail
  | .protocol message => .protocol message none
  | .io message => .transport message

@[simp] theorem restartable_fromTransport (error : TransportError) (language : String)
    (stderrTail : Option Text) : (fromTransport error language stderrTail).restartable = true := by
  cases error <;> rfl

def tailValue (tail : Option Text) : Value := (tail.map Value.string).getD .null

def toAppError : WorkerError → AppError
  | .disabled language =>
    .new .semanticBackendUnavailable (language ++ " language server is disabled")
  | .busy language =>
    .withDetails .lspBusy "Language-server request queue is full"
      (.json (json [("language", .str language)]))
  | .stopped => .new .lspWorkerStopped "Language-server worker has stopped"
  | .startFailed language message =>
    .withDetails .lspStartFailed message (.json (json [("language", .str language)]))
  | .timedOut language tail =>
    .withDetails .lspTimeout "Language-server response timed out"
      (.json (json [("language", .str language), ("stderr_tail", tailValue tail)]))
  | .serverExited language tail =>
    .withDetails .lspTransportError "Language server exited or closed its connection"
      (.json (json [("language", .str language), ("cause", .str "server_exited"),
        ("stderr_tail", tailValue tail)]))
  | .transport message => .new .lspTransportError message
  | .protocol message details => ⟨.lspProtocolError, message, details⟩
  | .server language error =>
    .withDetails .lspError (language ++ " language-server request failed") (.json error)
  | .unsupported operation =>
    .withDetails .lspUnsupported
      ("Language server does not advertise " ++ operation ++ " support")
      (.json (json [("operation", .str operation)]))
  | .syncUnsupported =>
    .new .lspSyncUnsupported "Language server does not advertise document synchronization"
  | .request error => error

end WorkerError

end CodeWeave
